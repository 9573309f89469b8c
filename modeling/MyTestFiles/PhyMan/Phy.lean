import MyTestFiles.PhyMan.Attributes

/-!
# `MyTestFiles.PhyMan.Phy`: the functions around the PHY

The functions of `EthMiiPhyMan.cxx` that read the registers of the PHY, push the parameters
into it and follow its autonegotiation, in a build with assertions. They work on `Mii` alone,
so whatever the state machine makes them do, they leave the run mode, the completion time and
the two flags of the manager as they are.

The source writes the functions that the state machine calls as
`State StateX() functionBeforeRun()` and `Transition in StateX()`. Here `stateX` is the
function of a state, and the transitions are `configurationPushed`, `checkAutoneg` and
`resolveError`. All three are "triggered by Event autoMakeProgress". The source has no body
for the member function `autoMakeProgress` that `waitAutonegFinish` calls, and its one other
use is `SM_throwEvent( autoMakeProgress )`, so it is the throwing of that event.

`state_` is assigned where the source assigns it, also in
`assert( state_ = StateWaitForAutonegErrorResolution )`.

* A read of the registers is the next one of a sequence of answers (`readHal`), so a device may
  answer anything, and differently each time.
* `pushParamsIntoMiiAndRestartNegotiaton` is one decision after the other in the order of the
  source. Where the parameters cannot be met it ends at the label `disable`.
* What the machine does with an event is not known here. The functions only say which event they
  throw and which state they ask for.
-/

set_option autoImplicit false

namespace MyTestFiles.PhyMan

open MyTestFiles.Lib
open MyTestFiles.InlinePower (EthLinkStatus EthDuplex EthLineSpeed EthLoopback
  EthFlowControlMode EthClockMode EthNegotiationError EthFaultIndication)

variable {σ : Type} (sm : StateMachine σ)

/-- Read the registers of the device. -/
def readHal : MiiM σ HalRead := do
  let m ← get
  modify fun m => { m with reads := m.reads + 1 }
  return m.hal m.reads

/-- `SM_throwEvent`: the machine takes the event. -/
def throwEvent (event : SmEvent) : MiiM σ Unit :=
  modify fun m => { m with sm := sm.throwEvent event m.sm }

/-! ### Registers that are written -/

/-- `default: assert( 0 )` for a PHY without a type. -/
def assertPhyType (fn : MiiAssertion) : MiiM σ Unit := do
  let m ← get
  assert .debug fn (m.phyType ≠ .null)

/-- `EthMiiPhyMan::setMiiRegDefaults`, which only writes registers. -/
def setMiiRegDefaults : MiiM σ Unit := assertPhyType .setMiiRegDefaults

/-- `EthMiiPhyMan::configurePhyConnector`, which only writes registers. -/
def configurePhyConnector : MiiM σ Unit := assertPhyType .configurePhyConnector

/-- `EthMiiPhyMan::disablePhyTransmission`, which only writes registers. -/
def disablePhyTransmission : MiiM σ Unit := assertPhyType .disablePhyTransmission

/-- `EthMiiPhyMan::restartPhyInitStateMachine`: the defaults at once, or a soft reset that
they wait for. -/
def restartPhyInitStateMachine : MiiM σ Unit := do
  assertPhyType .restartPhyInitStateMachine
  let m ← get
  if m.phyType = .bcm5208 ∨ m.phyType = .bcm5400 then
    -- soft reset the phy first
    modify fun m => { m with phyInitState := .waitForPhyReset }
  else
    setMiiRegDefaults
    modify fun m => { m with phyInitState := .complete }

/-! ### The configuration of the link -/

/-- The label `disable` of `pushParamsIntoMiiAndRestartNegotiaton`. -/
def disable : MiiM σ Unit := do
  let m ← get
  assert .debug .pushParamsIntoMiiAndRestartNegotiaton (m.state = .waitLinkDown)
  throwEvent sm .disabled

/-- The control register of a forced configuration, and nothing where the source goes to
`disable`. -/
def forcedControl (m : Mii σ) : Option HalEthControlReg := do
  let duplex ←
    if .full ∈ m.permittedDuplex then some EthDuplex.full
    else if .half ∈ m.permittedDuplex then some .half
    else none
  let lineSpeed ←
    if .speed100Mbps ∈ m.permittedLineSpeed then some EthLineSpeed.speed100Mbps
    else if .speed10Mbps ∈ m.permittedLineSpeed then some .speed10Mbps
    else if .speed1Gbps ∈ m.permittedLineSpeed then some .speed1Gbps
    else none
  if .none ∈ m.permittedFlowControlMode then some { lineSpeed, duplex } else none

/-- The parameters cannot be negotiated: no fault indication, no duplex, no line speed, or no
way to do without flow control. -/
def misconfigured (m : Mii σ) : Bool :=
  m.localFaultIndication = .null ∨
  (.half ∉ m.permittedDuplex ∧ .full ∉ m.permittedDuplex) ∨
  (.speed10Mbps ∉ m.permittedLineSpeed ∧ .speed100Mbps ∉ m.permittedLineSpeed ∧
    .speed1Gbps ∉ m.permittedLineSpeed) ∨
  .none ∉ m.permittedFlowControlMode

/-- The advertisement for a PHY with the capabilities `stat`. The second component says that
a pause mode is asked for, which takes 1 Gbps. -/
def advertisement (m : Mii σ) (stat : Capabilities) : HalEthAdReg × Bool :=
  let halfOk := decide (EthDuplex.half ∈ m.permittedDuplex)
  let fullOk := decide (EthDuplex.full ∈ m.permittedDuplex)
  let tenOk := decide (EthLineSpeed.speed10Mbps ∈ m.permittedLineSpeed)
  let hunOk := decide (EthLineSpeed.speed100Mbps ∈ m.permittedLineSpeed)
  let ad : HalEthAdReg :=
    { remoteFault := m.localFaultIndication ≠ .none
      base10tHalfDuplexCapable := stat.base10tHalfDuplexCapable && tenOk && halfOk
      base10tFullDuplexCapable := stat.base10tFullDuplexCapable && tenOk && fullOk
      base100txHalfDuplexCapable := stat.base100txHalfDuplexCapable && hunOk && halfOk
      base100txFullDuplexCapable := stat.base100txFullDuplexCapable && hunOk && fullOk
      base100t4Capable := stat.base100t4Capable && hunOk && halfOk }
  if .recvOnly ∈ m.permittedFlowControlMode then
    ({ ad with asymmetricPauseToPartner := true, symmetricPause := true }, true)
  else if .sendRecv ∈ m.permittedFlowControlMode then
    ({ ad with asymmetricPauseToPartner := false, symmetricPause := true }, true)
  else if .sendOnly ∈ m.permittedFlowControlMode then
    ({ ad with asymmetricPauseToPartner := true, symmetricPause := false }, true)
  else (ad, false)

/-- The clock modes that can be configured. -/
def configurableClockMode : EthClockMode → Bool
  | .forcedMaster => true
  | .forcedSlave => true
  | .prefMaster => true
  | .prefSlave => true
  | .auto => true
  | _ => false

/-- The end of `pushParamsIntoMiiAndRestartNegotiaton`, after the switch on the
configuration mode. -/
def pushRegisters (control : HalEthControlReg) (ad : HalEthAdReg)
    (base1000tControl : HalEth1000BasetControlReg) : MiiM σ Unit := do
  let m ← get
  assert .debug .pushParamsIntoMiiAndRestartNegotiaton
    (.speed1Gbps ∈ m.permittedLineSpeed → configurableClockMode m.permittedClockMode = true)
  assert .debug .pushParamsIntoMiiAndRestartNegotiaton (m.state ≠ .disabled)
  disablePhyTransmission
  configurePhyConnector
  modify fun m =>
    { m with
      savedControlReg := control
      savedAdReg := ad
      saved1000BasetControlReg := base1000tControl }

/-- The case `EthConfigurationModeForced`, with a control register. Only the two Marvell PHYs
throw the event here, and every PHY assigns `state_`. -/
def pushForced (control : HalEthControlReg) : MiiM σ Unit := do
  assertPhyType .pushParamsIntoMiiAndRestartNegotiaton
  let m ← get
  if m.phyType = .mrvl88E1000 ∨ m.phyType = .mrvl88E1040 then
    -- the speed and duplex of these phys are written once more after a reset
    throwEvent sm .waitConfigurationPush
    modify fun m => { m with needToPushMoreData := true }
  else pure ()
  modify fun m => { m with state := .waitConfigurationPush }
  pushRegisters control {} {}

/-- The case `EthConfigurationModeAuto`, for parameters that can be negotiated. -/
def pushAuto (stat : Capabilities) : MiiM σ Unit := do
  let m ← get
  assert .debug .pushParamsIntoMiiAndRestartNegotiaton (stat.base100t4Capable = false)
  let (ad, pause) := advertisement m stat
  assert .debug .pushParamsIntoMiiAndRestartNegotiaton
    (pause = true → .speed1Gbps ∈ m.permittedLineSpeed)
  let base1000tControl : HalEth1000BasetControlReg :=
    { advertise1000BasetFullCapability :=
        .speed1Gbps ∈ m.permittedLineSpeed ∧ .full ∈ m.permittedDuplex }
  assertPhyType .pushParamsIntoMiiAndRestartNegotiaton
  throwEvent sm .waitConfigurationPush
  pushRegisters { autoNegotiationEnable := true } ad base1000tControl

/-- `EthMiiPhyMan::pushParamsIntoMiiAndRestartNegotiaton`: write the configuration into the
registers, or disable the link where the configuration makes no sense. -/
def pushParamsIntoMiiAndRestartNegotiaton : MiiM σ Unit := do
  let m ← get
  assert .debug .pushParamsIntoMiiAndRestartNegotiaton (m.permittedLoopback ≠ .on)
  match m.ethConfigurationMode with
  | .disabled => disable sm
  | .forced =>
      modify fun m => { m with needToPushMoreData := false }
      match forcedControl m with
      | none => disable sm
      | some control => pushForced sm control
  | .auto =>
      let stat ← readHal
      if misconfigured m = true then disable sm
      else pushAuto sm stat.capable

/-! ### The results of autonegotiation -/

/-- The best mode that both sides advertise, in the order of the `if`s of the source. -/
def highestCommonMode (m : Mii σ) (partner : HalEthAdReg) (status1000Baset : HalRead) :
    Option (EthLineSpeed × EthDuplex) :=
  let ad := m.savedAdReg
  let base1000 := m.saved1000BasetControlReg
  if base1000.advertise1000BasetFullCapability &&
      status1000Baset.linkPartner1000BasetFullDuplexCapable then some (.speed1Gbps, .full)
  else if base1000.advertise1000BasetHalfCapability &&
      status1000Baset.linkPartner1000BasetHalfDuplexCapable then some (.speed1Gbps, .half)
  else if ad.base100txFullDuplexCapable && partner.base100txFullDuplexCapable then
    some (.speed100Mbps, .full)
  else if ad.base100txHalfDuplexCapable && partner.base100txHalfDuplexCapable then
    some (.speed100Mbps, .half)
  else if ad.base10tFullDuplexCapable && partner.base10tFullDuplexCapable then
    some (.speed10Mbps, .full)
  else if ad.base10tHalfDuplexCapable && partner.base10tHalfDuplexCapable then
    some (.speed10Mbps, .half)
  else none

/-- The error that is reported without a common mode: some line speed is common, and then the
duplex is at fault, or none is. -/
def noCommonMode (m : Mii σ) (partner : HalEthAdReg) (status1000Baset : HalRead) :
    EthNegotiationError :=
  let ad := m.savedAdReg
  let base1000 := m.saved1000BasetControlReg
  if ((ad.base10tFullDuplexCapable || ad.base10tHalfDuplexCapable) &&
        (partner.base10tFullDuplexCapable || partner.base10tHalfDuplexCapable)) ||
      ((ad.base100txFullDuplexCapable || ad.base100txHalfDuplexCapable) &&
        (partner.base100txFullDuplexCapable || partner.base100txHalfDuplexCapable)) ||
      ((base1000.advertise1000BasetHalfCapability ||
          base1000.advertise1000BasetFullCapability) &&
        (status1000Baset.linkPartner1000BasetHalfDuplexCapable ||
          status1000Baset.linkPartner1000BasetFullDuplexCapable)) then
    .duplexIncompatible
  else .lineSpeedIncompatible

/-- The flow control mode that is allowed here and possible with the partner, or the error of
the source for a partner that offers none of them. -/
def negotiatedFlowControl (allowed : Finset EthFlowControlMode) (partner : HalEthAdReg) :
    Except EthNegotiationError EthFlowControlMode :=
  let recvOnlyPossible := partner.asymmetricPauseToPartner || partner.symmetricPause
  let sendOnlyPossible := partner.asymmetricPauseToPartner && partner.symmetricPause
  let sendRecvPossible :=
    (partner.asymmetricPauseToPartner && partner.symmetricPause) || partner.symmetricPause
  if sendRecvPossible = true ∧ .sendRecv ∈ allowed then .ok .sendRecv
  else if recvOnlyPossible = true ∧ .recvOnly ∈ allowed then .ok .recvOnly
  else if sendOnlyPossible = true ∧ .sendOnly ∈ allowed then .ok .sendOnly
  else if .none ∈ allowed then .ok .none
  else if .sendOnly ∈ allowed then
    .error (if sendRecvPossible then .flowControlRecvIncompatible
      else .flowControlSendIncompatible)
  else if .recvOnly ∈ allowed then .error .flowControlRecvIncompatible
  else if sendOnlyPossible && !recvOnlyPossible then .error .flowControlRecvIncompatible
  else if recvOnlyPossible && !sendOnlyPossible then .error .flowControlSendIncompatible
  else .error .flowControlBothIncompatible

/-- The clock mode at a line speed. Only 1 Gbps has one. -/
def clockModeOf (lineSpeed : EthLineSpeed) (status1000Baset : HalRead) : EthClockMode :=
  if lineSpeed = .speed1Gbps then
    if status1000Baset.localTransmitterIsMaster then .master else .slave
  else .none

/-- The results of a complete autonegotiation. -/
def negotiated (m : Mii σ) (partner : HalEthAdReg) (status1000Baset : HalRead) : Results :=
  let results := { m.results with negotiationStatus := .successful }
  let results : Results :=
    match highestCommonMode m partner status1000Baset with
    | some (lineSpeed, duplex) => { results with lineSpeed, duplex }
    | none =>
        { results with
          negotiationError := noCommonMode m partner status1000Baset
          negotiationStatus := .error
          linkStatus := .down }
  let results : Results :=
    match negotiatedFlowControl m.permittedFlowControlMode partner with
    | .ok flowControlMode => { results with flowControlMode }
    | .error negotiationError =>
        { results with negotiationStatus := .error, negotiationError }
  { results with
    loopback := m.permittedLoopback
    clockMode := clockModeOf results.lineSpeed status1000Baset
    remoteFaultIndication := if partner.remoteFault then .linkFailure else .none }

/-- The results of a forced configuration with the link up. -/
def forcedResults (m : Mii σ) (status1000Baset : HalRead) : Results :=
  { m.results with
    negotiationStatus := .successful
    linkStatus := .up
    lineSpeed := m.savedControlReg.lineSpeed
    loopback := m.permittedLoopback
    duplex := m.savedControlReg.duplex
    flowControlMode := .none
    remoteFaultIndication := .none
    clockMode := clockModeOf m.savedControlReg.lineSpeed status1000Baset }

/-! ### The states -/

/-- Replace the results. -/
def setResults (results : Results) : MiiM σ Unit :=
  modify fun m => { m with results }

/-- `EthMiiPhyMan::autonegError`: a BCM5400 that found no common mode, until it has been
fixed. -/
def autonegError : MiiM σ Bool := do
  assertPhyType .autonegError
  let m ← get
  if m.phyType = .bcm5400 then
    if m.brcm5400AutoNegErrorFixState ≠ .null then return true
    else
      let interruptStatusReg ← readHal
      if interruptStatusReg.noHcdLink = true then
        modify fun m => { m with brcm5400AutoNegErrorFixState := .errorDetected }
        return true
      else return false
  else return false

/-- The state after a step of the fix, and nothing where the source asserts. -/
def nextErrorFixState : Brcm5400AutoNegErrorFixState → Option Brcm5400AutoNegErrorFixState
  | .errorDetected => some .step2
  | .step1 => some .step2
  | .step2 => some .step3
  | .step3 => some .errorResolved
  | .errorResolved => some .null
  | .null => none

/-- `EthMiiPhyMan::maybeResolveAutonegErrors`: one step of the workaround, once the device has
caught up. -/
def maybeResolveAutonegErrors : MiiM σ Unit := do
  -- the source has `assert( state_ = StateWaitForAutonegErrorResolution )`, an assignment
  modify fun m => { m with state := .waitForAutonegErrorResolution }
  let hal ← readHal
  if hal.writeSynced = true then
    let m ← get
    assert .debug .maybeResolveAutonegErrors (m.phyType = .bcm5400)
    match nextErrorFixState m.brcm5400AutoNegErrorFixState with
    | some next => modify fun m => { m with brcm5400AutoNegErrorFixState := next }
    | none => throw .maybeResolveAutonegErrors
  else pure ()

/-- `Transition in StateWaitConfigurationPush()`, on `autoMakeProgress`. -/
def configurationPushed : MiiM σ Unit := do
  let hal ← readHal
  if hal.writeSynced = true then throwEvent sm .stateWaitAutonegFinish
  else pure ()

/-- `Transition in StateWaitAutonegFinish()`, on `autoMakeProgress`: read the results once the
device has them. -/
def checkAutoneg : MiiM σ Unit := do
  let m ← get
  assert .debug .autoMakeProgress (m.savedControlReg.autoNegotiationEnable = true)
  let hal ← readHal
  if hal.readSynced = true then
    let status ← readHal
    setResults { m.results with linkStatus := status.linkStatus }
    if status.linkStatus = .up then
      if status.autoNegotiationComplete = true then
        let partner ← readHal
        let status1000Baset ← readHal
        assert .debug .autoMakeProgress (m.savedAdReg.base100t4Capable = false)
        let m ← get
        setResults (negotiated m partner.linkPartnerAdReg status1000Baset)
      else
        -- the link is down until negotiation is complete
        setResults { m.results with linkStatus := .down }
    else
      let error ← autonegError
      if error = true then throwEvent sm .waitForAutonegErrorResolution
      else pure ()
  else pure ()

/-- `Transition in StateWaitForAutonegErrorResolution()`, on `autoMakeProgress`. -/
def resolveError : MiiM σ Unit := do
  let error ← autonegError
  if error = true then maybeResolveAutonegErrors
  else throwEvent sm .waitAutonegFinish

/-- `autoMakeProgress()`: the event that the three transitions are triggered by. -/
def autoMakeProgress : MiiM σ Unit := throwEvent sm .autoMakeProgress

/-- The case `EthConfigurationModeForced` of `waitAutonegFinish`. -/
def checkForcedLink : MiiM σ Unit := do
  let status ← readHal
  if status.linkStatus = .up then
    let m ← get
    assert .debug .waitAutonegFinish (m.savedControlReg.autoNegotiationEnable = false)
    let status1000Baset ← readHal
    setResults (forcedResults m status1000Baset)
  else
    let m ← get
    setResults { m.results with negotiationStatus := .inProgress }

/-- `Transition waitAutonegFinish()`, which two of the states call as well. -/
def waitAutonegFinish : MiiM σ Unit := do
  let m ← get
  match m.ethConfigurationMode with
  | .disabled => throw .waitAutonegFinish
  | .forced => checkForcedLink
  | .auto => autoMakeProgress sm

/-- `EthMiiPhyMan::needToPushMoreDataToForceSpeedAndDuplex`: the second write of the forced
speed and duplex still waits for the device. -/
def needToPushMoreDataToForceSpeedAndDuplex : MiiM σ Bool := do
  let m ← get
  assert .debug .needToPushMoreDataToForceSpeedAndDuplex (m.permittedLoopback ≠ .on)
  if m.needToPushMoreData = true then
    let hal ← readHal
    if hal.writeSynced = true then
      modify fun m => { m with needToPushMoreData := false }
      return false
    else return true
  else return false

/-- `State StateWaitConfigurationPush()` -/
def stateWaitConfigurationPush : MiiM σ Unit := do
  let more ← needToPushMoreDataToForceSpeedAndDuplex
  if more = true then pure () else waitAutonegFinish sm

/-- `State StateWaitAutonegFinish()` -/
def stateWaitAutonegFinish : MiiM σ Unit := waitAutonegFinish sm

/-- `State StateWaitForAutonegErrorResolution()` -/
def stateWaitForAutonegErrorResolution : MiiM σ Unit := throwEvent sm .autoMakeProgress

/-- `State StateWaitLinkDown()`: once the device has taken the link down, it is configured,
unless the port goes into loopback. -/
def stateWaitLinkDown : MiiM σ Unit := do
  let hal ← readHal
  if hal.writeSynced = true then
    let m ← get
    if m.permittedLoopback = .on then
      throwEvent sm .loopBackEnabled
      modify fun m => { m with state := .loopbackEnabled }
    else pushParamsIntoMiiAndRestartNegotiaton sm
  else pure ()

/-- `State StateDisabled()`: the negotiation is over, or it waits for a better
configuration. -/
def stateDisabled : MiiM σ Unit := do
  let m ← get
  let negotiationStatus : EthNegotiationStatus :=
    match m.ethConfigurationMode with
    | .disabled => .successful
    | .forced => .inProgress
    | .auto => .inProgress
  setResults { m.results with negotiationStatus }

/-- `State StateLoopbackEnabled()`, with the line speed of `loopbackEnableControlRegRep`. -/
def stateLoopbackEnabled : MiiM σ Unit := do
  assertPhyType .loopbackEnableControlRegRep
  let m ← get
  let gigabit := m.phyType = .bcm5400 ∨ m.phyType = .mrvl88E1000 ∨ m.phyType = .mrvl88E1040
  setResults
    { m.results with
      negotiationStatus := .successful
      linkStatus := .up
      lineSpeed := if gigabit then .speed1Gbps else .speed100Mbps
      loopback := .on
      duplex := .full
      flowControlMode := .none
      remoteFaultIndication := .none }

/-! ### The initialization of the PHY -/

/-- `Bcm5400PowerFixMaxSteps`: the entries of `bcm5400PowerFixStepTable_`. -/
def bcm5400PowerFixMaxSteps : Nat := 7

/-- One pass of the loop of `maybeMakePhyInitProgress`, in a state before the last. -/
def phyInitProgress : MiiM σ Unit := do
  let m ← get
  match m.phyInitState with
  | .waitForPhyReset =>
      let written ← readHal
      let read ← readHal
      if written.writeSynced = true ∧ read.readSynced = true then
        setMiiRegDefaults
        match m.phyType with
        | .bcm5208 => modify fun m => { m with phyInitState := .complete }
        | .bcm5400 =>
            modify fun m =>
              { m with bcm5400PowerFixStep := 0, phyInitState := .waitBcm5400PowerFix }
        | _ => throw .maybeMakePhyInitProgress
      else pure ()
  | .waitBcm5400PowerFix =>
      let hal ← readHal
      if hal.writeSynced = true then
        if m.bcm5400PowerFixStep < bcm5400PowerFixMaxSteps then
          modify fun m => { m with bcm5400PowerFixStep := m.bcm5400PowerFixStep + 1 }
        else modify fun m => { m with phyInitState := .complete }
      else pure ()
  | _ => throw .maybeMakePhyInitProgress

end MyTestFiles.PhyMan
