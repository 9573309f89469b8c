import Mathlib.Data.Finset.Basic
import MyTestFiles.InlinePower.Results
import MyTestFiles.Lib.Checked

/-!
# `MyTestFiles.PhyMan.Attributes`: the attributes of the PHY manager

`EthMiiPhyMan.cxx` configures an Ethernet PHY over MII registers and watches its
autonegotiation. `Manager` is an `EthMiiPhyMan`. Its part `Mii` holds the attributes that the
functions around the PHY registers read and write: the configuration, the states and the
results. The other attributes are those of the run mode and of the completion time.

The file is written against a state machine framework that the repository only has an
interface of (`StateMachine.h`). `SM_throwEvent( e )` hands an event to the machine,
`SM->run()` lets it work, and `SM->state()` is the state that it is in. So the framework is a
parameter here: the machine is an object of some type `σ`, which `Mii` carries in `sm`, and
`StateMachine` has its three functions. The attribute
`state_` of the manager is not the state of the machine. Four functions of the source assign
it, and two assertions read it.

A register that is read has the value that the device gives at that reading: `hal n` is what
reading number `n` finds, and `reads` counts the readings. Bits that are only written to the
device are left out.

`trace` is not an attribute of the source. It records the calls of `changeParam` and of
`restartStateMachine`, the latest one first.
-/

set_option autoImplicit false

namespace MyTestFiles.PhyMan

open MyTestFiles.Lib
open MyTestFiles.InlinePower (EthLinkStatus EthDuplex EthLineSpeed EthLoopback
  EthFlowControlMode EthClockMode EthNegotiationError EthFaultIndication)

/-! ### Configuration, states and registers -/

/-- `EthMiiPhyType`: the PHYs that the manager knows, and `null` before it has been told. -/
inductive EthMiiPhyType where
  | null
  | bcm5208
  | bcm5218
  | bcm5400
  | lxt9782
  | mrvl88E1000
  | mrvl88E1040
  deriving DecidableEq

/-- `EthMiiPhyMan::State`, the values of `state_` and of `SM->state()`. -/
inductive State where
  | null
  | waitPhyInit
  | waitLinkDown
  | waitConfigurationPush
  | waitAutonegFinish
  | waitForAutonegErrorResolution
  | loopbackEnabled
  | disabled
  deriving DecidableEq

/-- `EthMiiPhyMan::PhyInitState`: where the initialization of the PHY is. -/
inductive PhyInitState where
  | null
  | waitForPhyReset
  | waitBcm5400PowerFix
  | complete
  deriving DecidableEq

/-- `EthMiiPhyMan::Brcm5400AutoNegErrorFixState`: the steps of the workaround for a BCM5400
that finds no common mode. -/
inductive Brcm5400AutoNegErrorFixState where
  | null
  | errorDetected
  | step1
  | step2
  | step3
  | errorResolved
  deriving DecidableEq

/-- `EthConfigurationMode`. The `default` branches of the source are for other values, which
an enumeration does not have. -/
inductive EthConfigurationMode where
  | disabled
  | forced
  | auto
  deriving DecidableEq

/-- `EthConnectorType`, where the manager only tells `null` from the others. -/
inductive EthConnectorType where
  | null
  | other (kind : Nat)
  deriving DecidableEq

/-- `EthNegotiationStatus`: how far the link configuration protocol is. -/
inductive EthNegotiationStatus where
  | notStarted
  | inProgress
  | successful
  | error
  deriving DecidableEq

/-- The capability bits of `HalEthStatusReg` and of `HalEthAdReg`. -/
structure Capabilities where
  base10tHalfDuplexCapable : Bool := false
  base10tFullDuplexCapable : Bool := false
  base100txHalfDuplexCapable : Bool := false
  base100txFullDuplexCapable : Bool := false
  base100t4Capable : Bool := false
  deriving DecidableEq

/-- `HalEthAdReg`: an advertisement, of this side or of the partner. -/
structure HalEthAdReg extends Capabilities where
  remoteFault : Bool := false
  asymmetricPauseToPartner : Bool := false
  symmetricPause : Bool := false
  deriving DecidableEq

/-- `HalEthControlReg`, with the fields that the manager reads back from
`savedControlReg_`. -/
structure HalEthControlReg where
  autoNegotiationEnable : Bool := false
  lineSpeed : EthLineSpeed := .speed10Mbps
  duplex : EthDuplex := .half
  deriving DecidableEq

/-- `HalEth1000BasetControlReg`, with the fields that are read back. -/
structure HalEth1000BasetControlReg where
  advertise1000BasetHalfCapability : Bool := false
  advertise1000BasetFullCapability : Bool := false
  deriving DecidableEq

/-- What the registers of the device have at one reading. The first two say that the
hardware has caught up with the writes, `hardwareWriteVersion() == softwareWriteVersion()`
and `hardwareReadVersion() == softwareWriteVersion()`. -/
structure HalRead where
  writeSynced : Bool
  readSynced : Bool
  capable : Capabilities
  linkStatus : EthLinkStatus
  autoNegotiationComplete : Bool
  linkPartnerAdReg : HalEthAdReg
  linkPartner1000BasetHalfDuplexCapable : Bool
  linkPartner1000BasetFullDuplexCapable : Bool
  localTransmitterIsMaster : Bool
  noHcdLink : Bool
  linkDownEvents : Nat
  spareControlEnable : Bool
  dpmDetectionEnable : Bool
  dpmStat : Bool
  mismtch : Bool
  deriving DecidableEq

/-- The results of the link configuration protocol. -/
structure Results where
  negotiationStatus : EthNegotiationStatus
  negotiationError : EthNegotiationError
  remoteFaultIndication : EthFaultIndication
  linkStatus : EthLinkStatus
  lineSpeed : EthLineSpeed
  duplex : EthDuplex
  flowControlMode : EthFlowControlMode
  clockMode : EthClockMode
  loopback : EthLoopback
  deriving DecidableEq

/-- The attributes of `EthMiiPhyMan` that the functions around the PHY work on, with the
device that they read (`hal`, `reads`) and the state machine that they throw events at
(`sm`). -/
structure Mii (σ : Type) where
  phyType : EthMiiPhyType
  state : State
  phyInitState : PhyInitState
  bcm5400PowerFixStep : Nat
  brcm5400AutoNegErrorFixState : Brcm5400AutoNegErrorFixState
  needToPushMoreData : Bool
  ethConfigurationMode : EthConfigurationMode
  nextPageCapable : Bool
  permittedFlowControlMode : Finset EthFlowControlMode
  permittedDuplex : Finset EthDuplex
  permittedLineSpeed : Finset EthLineSpeed
  permittedClockMode : EthClockMode
  localFaultIndication : EthFaultIndication
  connectorType : EthConnectorType
  permittedLoopback : EthLoopback
  savedControlReg : HalEthControlReg
  savedAdReg : HalEthAdReg
  saved1000BasetControlReg : HalEth1000BasetControlReg
  results : Results
  hal : Nat → HalRead
  reads : Nat
  sm : σ

/-! ### The manager -/

/-- `RunMode`, from the lowest to the highest. -/
inductive RunMode where
  | reboot
  | reset
  | frozen
  | operating
  deriving DecidableEq

/-- The value of a run mode, which `<` compares. -/
def RunMode.level : RunMode → Nat
  | .reboot => 0
  | .reset => 1
  | .frozen => 2
  | .operating => 3

/-- What `trace` records: `changeParam` has been called, or `restartStateMachine` has. -/
inductive TraceEvent where
  | changed
  | restarted
  deriving DecidableEq

/-- The attributes of `EthMiiPhyMan`. `MicrosecondsNever` is `none`, and `halEthMiiDevice`
says that a device is attached. -/
structure Manager (σ : Type) where
  mii : Mii σ
  halEthMiiDevice : Bool
  runMode : RunMode
  paramChanged : Bool
  needToInitializePhy : Bool
  needToWaitForLinkDownOnConfigChange : Bool
  lastCompleteTime : Option Int
  trace : List TraceEvent

/-! ### Events and assertions -/

/-- The events that the manager throws, under the names of the source. -/
inductive SmEvent where
  | initPhy
  | waitLinkDown
  | disabled
  | waitConfigurationPush
  | loopBackEnabled
  | stateWaitAutonegFinish
  | waitAutonegFinish
  | waitForAutonegErrorResolution
  | autoMakeProgress
  deriving DecidableEq

/-- The functions around the PHY that assert something. -/
inductive MiiAssertion where
  | pushParamsIntoMiiAndRestartNegotiaton
  | waitAutonegFinish
  | autoMakeProgress
  | autonegError
  | maybeResolveAutonegErrors
  | setMiiRegDefaults
  | configurePhyConnector
  | disablePhyTransmission
  | restartPhyInitStateMachine
  | maybeMakePhyInitProgress
  | needToPushMoreDataToForceSpeedAndDuplex
  | loopbackEnableControlRegRep
  deriving DecidableEq

/-- Where a program on the manager can stop. All but the last three are the functions that
assert something. `stateMachine` is an error of the framework. `tooLong` is a loop of the
manager that is not over after the passes it is given, and `running` is the loop around
`SM->run()` that is not over. -/
inductive Assertion where
  | mii (fn : MiiAssertion)
  | ethMiiPhyType
  | connectorType
  | permittedLoopback
  | runMode
  | changeParam
  | restartStateMachine
  | forcedDpmDeviceDiscovery
  | dpmDeviceDiscoveryModeEnable
  | dpmDeviceDiscovery
  | dpmDeviceStatus
  | stateMachine
  | tooLong
  | running
  deriving DecidableEq

/-- A program around the PHY. -/
abbrev MiiM (σ : Type) := Checked MiiAssertion (Mii σ)

/-- A program on the manager. -/
abbrev ManagerM (σ : Type) := Checked Assertion (Manager σ)

/-- The state machine framework, as far as it is used here.

- `throwEvent event` is what `SM_throwEvent( event )` makes of the machine;
- `state` is `SM->state()`;
- `run` is `SM->run()`, which calls functions of the manager (`StateMachine.Documented` in
  `MyTestFiles.PhyMan.Manager` says which). -/
structure StateMachine (σ : Type) where
  throwEvent : SmEvent → σ → σ
  state : σ → State
  run : ManagerM σ Unit

end MyTestFiles.PhyMan
