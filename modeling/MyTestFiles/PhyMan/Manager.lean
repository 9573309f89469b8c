import MyTestFiles.InlinePower.Negotiator
import MyTestFiles.PhyMan.Phy

/-!
# `MyTestFiles.PhyMan.Manager`: the manager of an Ethernet PHY

`EthMiiPhyMan` and its `EthAutoNegotiator` interface, in a build with assertions. A setter
that changes a parameter calls `changeParam`, which only marks the configuration as changed
and forgets when the results were read. `runMode` restarts the state machine when it brings a
changed configuration to `RunModeOperating`. Two more places restart it on their own: the end
of the PHY initialization, which the state machine gets to inside the status queries, and a
forced discovery.

What is relied on of the framework is `StateMachine.Documented`. The state machine "takes the
responsibility of handling events thrown at it" and calls the functions of the states and the
transitions that it was set up with. So a run of it (`Runs`) is any sequence of its own steps
and of calls of those functions, in any order and any number, until it returns, until one of
the functions stops at an assertion, or until the framework reports an error of its own. An
event that is thrown waits in the machine until it runs: `StateMachine.throwEvent` does not
call the manager.

A status query repeats `SM->run()` until the state does not change. How often that is depends
on the framework, so the number of passes that are followed is a parameter (`passes`), and a
query that needs more stops with `running`.
-/

set_option autoImplicit false

namespace MyTestFiles.PhyMan

open MyTestFiles.Lib
open MyTestFiles.InlinePower (EthLinkStatus EthDuplex EthLineSpeed EthLoopback
  EthFlowControlMode EthClockMode EthNegotiationError EthFaultIndication Setting
  EthDpmDeviceStatus)

variable {σ : Type} (sm : StateMachine σ)

/-- `MiiPollInterval`: how long the results are considered to be valid. -/
def miiPollInterval : Int := 50 * 1000

/-- More passes than any loop of the manager itself makes. -/
def maxPasses : Nat := 8

/-- The constructor. The attributes that it leaves alone have the values that the memory
had before. -/
def ethMiiPhyMan (garbage : Mii σ) : Manager σ where
  mii :=
    { garbage with
      phyType := .null
      state := .null
      phyInitState := .null
      brcm5400AutoNegErrorFixState := .null
      needToPushMoreData := false
      results := { garbage.results with clockMode := .null } }
  halEthMiiDevice := false
  runMode := .reboot
  paramChanged := false
  needToInitializePhy := false
  needToWaitForLinkDownOnConfigChange := true
  lastCompleteTime := none
  trace := []

/-- A program on the PHY side. -/
def onMii {α : Type} (prog : MiiM σ α) : ManagerM σ α := fun m =>
  match prog m.mii with
  | .ok (a, mii) => .ok (a, { m with mii })
  | .error fn => .error (.mii fn)

/-! ### Parameter changes -/

/-- A link that is up counts as down after a change. -/
def takeLinkDown (mii : Mii σ) : Mii σ :=
  if mii.results.linkStatus = .up then
    { mii with results := { mii.results with linkStatus := .down } }
  else mii

/-- `EthMiiPhyMan::changeParam` -/
def changeParam : ManagerM σ Unit := do
  let m ← get
  assert .debug .changeParam (m.runMode.level < RunMode.operating.level)
  modify fun m =>
    { m with
      mii := takeLinkDown m.mii
      paramChanged := true
      lastCompleteTime := none
      trace := .changed :: m.trace }

/-- `EthMiiPhyMan::restartStateMachine`: send the state machine to initialize the PHY, to wait
for the link to go down, or at once to the configuration of the link. -/
def restartStateMachine : ManagerM σ Unit := do
  modify fun m => { m with paramChanged := false, trace := .restarted :: m.trace }
  let m ← get
  assert .debug .restartStateMachine (m.lastCompleteTime = none)
  if m.needToInitializePhy = true then
    onMii (throwEvent sm .initPhy)
    onMii restartPhyInitStateMachine
  else if m.needToWaitForLinkDownOnConfigChange = true then
    onMii (throwEvent sm .waitLinkDown)
    onMii disablePhyTransmission
  else onMii (pushParamsIntoMiiAndRestartNegotiaton sm)

section Setter
variable {α : Type} [DecidableEq α]

/-- A setter: nothing for the value that is already set. -/
def setParam (get : Mii σ → α) (set : Mii σ → Mii σ) (value : α) : ManagerM σ Unit := do
  let m ← MonadState.get
  if get m.mii ≠ value then
    changeParam
    modify fun m => { m with mii := set m.mii }
  else pure ()

end Setter

/-- `configurationMode( ecm )` -/
def configurationMode (ecm : EthConfigurationMode) : ManagerM σ Unit :=
  setParam Mii.ethConfigurationMode (fun mii => { mii with ethConfigurationMode := ecm }) ecm

/-- `connectorType( type )`, which asserts that there is one. -/
def connectorType (type : EthConnectorType) : ManagerM σ Unit := do
  assert .debug .connectorType (type ≠ .null)
  setParam Mii.connectorType (fun mii => { mii with connectorType := type }) type

/-- `nextPageCapable( npc )` -/
def nextPageCapable (npc : Bool) : ManagerM σ Unit :=
  setParam Mii.nextPageCapable (fun mii => { mii with nextPageCapable := npc }) npc

/-- `permittedFlowControlMode( efcms )` -/
def permittedFlowControlMode (efcms : Finset EthFlowControlMode) : ManagerM σ Unit :=
  setParam Mii.permittedFlowControlMode
    (fun mii => { mii with permittedFlowControlMode := efcms }) efcms

/-- `permittedDuplex( eds )` -/
def permittedDuplex (eds : Finset EthDuplex) : ManagerM σ Unit :=
  setParam Mii.permittedDuplex (fun mii => { mii with permittedDuplex := eds }) eds

/-- `permittedLineSpeed( elss )` -/
def permittedLineSpeed (elss : Finset EthLineSpeed) : ManagerM σ Unit :=
  setParam Mii.permittedLineSpeed (fun mii => { mii with permittedLineSpeed := elss }) elss

/-- `permittedClockMode( ecm )` -/
def permittedClockMode (ecm : EthClockMode) : ManagerM σ Unit :=
  setParam Mii.permittedClockMode (fun mii => { mii with permittedClockMode := ecm }) ecm

/-- `localFaultIndication( efi )` -/
def localFaultIndication (efi : EthFaultIndication) : ManagerM σ Unit :=
  setParam Mii.localFaultIndication (fun mii => { mii with localFaultIndication := efi }) efi

/-- `permittedLoopback( l )`, which asserts its argument after `changeParam`. -/
def permittedLoopback (l : EthLoopback) : ManagerM σ Unit := do
  let m ← get
  if m.mii.permittedLoopback ≠ l then
    changeParam
    assert .debug .permittedLoopback (l = .on ∨ l = .off)
    modify fun m => { m with mii := { m.mii with permittedLoopback := l } }
  else pure ()

/-- A parameter together with a value for it. -/
inductive Param where
  | configurationMode (ecm : EthConfigurationMode)
  | connectorType (type : EthConnectorType)
  | nextPageCapable (npc : Bool)
  | permittedFlowControlMode (efcms : Finset EthFlowControlMode)
  | permittedDuplex (eds : Finset EthDuplex)
  | permittedLineSpeed (elss : Finset EthLineSpeed)
  | permittedClockMode (ecm : EthClockMode)
  | localFaultIndication (efi : EthFaultIndication)
  | permittedLoopback (l : EthLoopback)

/-- The setter of a parameter, called with the value. -/
def setter : Param → ManagerM σ Unit
  | .configurationMode ecm => configurationMode ecm
  | .connectorType type => connectorType type
  | .nextPageCapable npc => nextPageCapable npc
  | .permittedFlowControlMode efcms => permittedFlowControlMode efcms
  | .permittedDuplex eds => permittedDuplex eds
  | .permittedLineSpeed elss => permittedLineSpeed elss
  | .permittedClockMode ecm => permittedClockMode ecm
  | .localFaultIndication efi => localFaultIndication efi
  | .permittedLoopback l => permittedLoopback l

/-- The attribute of the parameter has the value. -/
def Param.Set (mii : Mii σ) : Param → Prop
  | .configurationMode ecm => mii.ethConfigurationMode = ecm
  | .connectorType type => mii.connectorType = type
  | .nextPageCapable npc => mii.nextPageCapable = npc
  | .permittedFlowControlMode efcms => mii.permittedFlowControlMode = efcms
  | .permittedDuplex eds => mii.permittedDuplex = eds
  | .permittedLineSpeed elss => mii.permittedLineSpeed = elss
  | .permittedClockMode ecm => mii.permittedClockMode = ecm
  | .localFaultIndication efi => mii.localFaultIndication = efi
  | .permittedLoopback l => mii.permittedLoopback = l

/-! ### The run mode -/

/-- The parameters after a boot. -/
def bootParameters (mii : Mii σ) : Mii σ :=
  { mii with
    ethConfigurationMode := .disabled
    nextPageCapable := false
    permittedFlowControlMode := ∅
    permittedDuplex := ∅
    permittedLineSpeed := ∅
    localFaultIndication := .none
    connectorType := .null
    permittedClockMode := .null }

/-- One pass of the loop of `runMode` on the way up. -/
def boot : ManagerM σ Unit := do
  let m ← get
  match m.runMode with
  | .reboot =>
      assert .debug .runMode (m.mii.phyType ≠ .null)
      changeParam
      modify fun m => { m with mii := bootParameters m.mii, runMode := .reset }
  | .reset =>
      changeParam
      modify fun m => { m with needToInitializePhy := true, runMode := .frozen }
  | .frozen =>
      modify fun m => { m with runMode := .operating }
      assert .debug .runMode (m.halEthMiiDevice = true)
      if m.paramChanged = true then restartStateMachine sm else pure ()
  | .operating => throw .runMode

/-- One pass on the way down. -/
def shutDown : ManagerM σ Unit := do
  let m ← get
  match m.runMode with
  | .operating => modify fun m => { m with runMode := .frozen }
  | .frozen => modify fun m => { m with runMode := .reset }
  | .reset => modify fun m => { m with runMode := .reboot }
  | .reboot => throw .runMode

/-- `EthMiiPhyMan::runMode` -/
def runMode (rm : RunMode) : ManagerM σ Unit :=
  whileLoop .tooLong (fun m => m.runMode ≠ rm)
    (do
      let m ← get
      if m.runMode.level < rm.level then boot sm else shutDown)
    maxPasses

/-! ### The state machine -/

/-- `EthMiiPhyMan::maybeMakePhyInitProgress`: the initialization of the PHY as far as the
device allows, and at its end a restart. -/
def maybeMakePhyInitProgress : ManagerM σ Unit :=
  untilStable .tooLong (fun m => m.mii.phyInitState)
    (do
      let m ← get
      if m.mii.phyInitState = .complete then
        modify fun m => { m with needToInitializePhy := false, lastCompleteTime := none }
        restartStateMachine sm
      else onMii phyInitProgress)
    maxPasses

/-- The functions of the manager that the state machine is set up with. -/
inductive Notification where
  /-- The function of a state, before the machine runs in it. -/
  | functionBeforeRun (state : State)
  /-- `Transition in StateX()`, on `autoMakeProgress`. -/
  | transition (state : State)
  /-- `Transition waitAutonegFinish()` -/
  | waitAutonegFinish

/-- Call such a function. States that the source gives no function call none. -/
def notify : Notification → ManagerM σ Unit
  | .functionBeforeRun .waitPhyInit => maybeMakePhyInitProgress sm
  | .functionBeforeRun .waitLinkDown => onMii (stateWaitLinkDown sm)
  | .functionBeforeRun .waitConfigurationPush => onMii (stateWaitConfigurationPush sm)
  | .functionBeforeRun .waitAutonegFinish => onMii (stateWaitAutonegFinish sm)
  | .functionBeforeRun .waitForAutonegErrorResolution =>
      onMii (stateWaitForAutonegErrorResolution sm)
  | .functionBeforeRun .loopbackEnabled => onMii stateLoopbackEnabled
  | .functionBeforeRun .disabled => onMii stateDisabled
  | .transition .waitConfigurationPush => onMii (configurationPushed sm)
  | .transition .waitAutonegFinish => onMii (checkAutoneg sm)
  | .transition .waitForAutonegErrorResolution => onMii (resolveError sm)
  | .waitAutonegFinish => onMii (waitAutonegFinish sm)
  | _ => pure ()

/-- A run of the state machine from a manager, with what it ends in: steps of the machine
itself and calls of the functions that it was set up with. -/
inductive Runs : Manager σ → Except Assertion (Manager σ) → Prop where
  | done (m : Manager σ) : Runs m (.ok m)
  | error (m : Manager σ) : Runs m (.error .stateMachine)
  | own {m : Manager σ} {r : Except Assertion (Manager σ)} (machine : σ)
      (h : Runs { m with mii := { m.mii with sm := machine } } r) : Runs m r
  | notified {m m' : Manager σ} {r : Except Assertion (Manager σ)} (n : Notification)
      (hn : notify sm n m = .ok ((), m')) (h : Runs m' r) : Runs m r
  | stopped {m : Manager σ} {fn : Assertion} (n : Notification)
      (hn : notify sm n m = .error fn) : Runs m (.error fn)

/-- What the manager relies on: `SM->run()` touches it only through the functions that the
machine was set up with. -/
structure StateMachine.Documented : Prop where
  run : ∀ m, Runs sm m ((sm.run m).map Prod.snd)

/-! ### The status queries -/

/-- The results before anything is known. -/
def assumptions (results : Results) : Results :=
  { results with
    negotiationStatus := .notStarted
    negotiationError := .null
    remoteFaultIndication := .null
    linkStatus := .down
    lineSpeed := .null
    duplex := .null
    loopback := .null
    flowControlMode := .null }

/-- The results are recent enough. -/
def checkedRecently (lastCompleteTime : Option Int) (now : Int) : Bool :=
  match lastCompleteTime with
  | none => false
  | some time => time + miiPollInterval > now

/-- `EthMiiPhyMan::checkAutoNegComplete` at the time `now`. -/
def checkAutoNegComplete (passes : Nat) (now : Int) : ManagerM σ Unit := do
  let m ← get
  if checkedRecently m.lastCompleteTime now = true then pure ()
  else
    onMii (setResults (assumptions m.mii.results))
    if m.runMode.level < RunMode.operating.level then pure ()
    else
      modify fun m => { m with lastCompleteTime := some now }
      untilStable .running (fun m => sm.state m.mii.sm) sm.run passes

/-- `negotiationStatus()`, which has an answer of its own below `RunModeOperating`. -/
def negotiationStatus (passes : Nat) (now : Int) : ManagerM σ EthNegotiationStatus := do
  let m ← get
  if m.runMode.level < RunMode.operating.level then return .notStarted
  else
    checkAutoNegComplete sm passes now
    let m ← get
    return m.mii.results.negotiationStatus

/-- `negotiationError()`, the one query that does not check. -/
def negotiationError : ManagerM σ EthNegotiationError := do
  let m ← get
  return m.mii.results.negotiationError

/-- A query that reads a result after `checkAutoNegComplete`. -/
def queryResult {α : Type} (result : Results → α) (passes : Nat) (now : Int) : ManagerM σ α := do
  checkAutoNegComplete sm passes now
  let m ← get
  return result m.mii.results

/-- `linkStatus()` -/
def linkStatus : Nat → Int → ManagerM σ EthLinkStatus := queryResult sm Results.linkStatus

/-- `remoteFaultIndication()` -/
def remoteFaultIndication : Nat → Int → ManagerM σ EthFaultIndication :=
  queryResult sm Results.remoteFaultIndication

/-- `flowControlMode()` -/
def flowControlMode : Nat → Int → ManagerM σ EthFlowControlMode :=
  queryResult sm Results.flowControlMode

/-- `duplex()` -/
def duplex : Nat → Int → ManagerM σ EthDuplex := queryResult sm Results.duplex

/-- `lineSpeed()` -/
def lineSpeed : Nat → Int → ManagerM σ EthLineSpeed := queryResult sm Results.lineSpeed

/-- `clockMode()` -/
def clockMode : Nat → Int → ManagerM σ EthClockMode := queryResult sm Results.clockMode

/-- `loopback()` -/
def loopback : Nat → Int → ManagerM σ EthLoopback := queryResult sm Results.loopback

/-- `linkDownEvents()`, a counter of the device. -/
def linkDownEvents (passes : Nat) (now : Int) : ManagerM σ Nat := do
  checkAutoNegComplete sm passes now
  let hal ← onMii readHal
  return hal.linkDownEvents

/-- A setting that only a BCM5218 has, and nothing while the device has not caught up. -/
def readSetting (fn : Assertion) (bit : HalRead → Bool) : ManagerM σ Setting := do
  let m ← get
  assert .debug fn (m.mii.phyType = .bcm5218)
  assert .debug fn (m.halEthMiiDevice = true)
  let hal ← onMii readHal
  if hal.writeSynced = true then
    let reg ← onMii readHal
    return if bit reg then .on else .off
  else return .null

/-- `EthMiiPhyMan::dpmDeviceDiscoveryModeEnable` -/
def dpmDeviceDiscoveryModeEnable : ManagerM σ Setting :=
  readSetting .dpmDeviceDiscoveryModeEnable HalRead.spareControlEnable

/-- `EthMiiPhyMan::dpmDeviceDiscovery` -/
def dpmDeviceDiscovery : ManagerM σ Setting :=
  readSetting .dpmDeviceDiscovery HalRead.dpmDetectionEnable

/-- The two bits of the register, which are never set together. -/
def deviceStatusOf (reg : HalRead) : EthDpmDeviceStatus :=
  if reg.dpmStat then .dpmDevicePresent
  else if reg.mismtch then .nonDpmDevicePresent
  else .nothingDetected

/-- `dpmDeviceStatus()`. The assertion reads the two settings, and the condition after it
reads them once more. -/
def dpmDeviceStatus (passes : Nat) (now : Int) : ManagerM σ EthDpmDeviceStatus := do
  checkAutoNegComplete sm passes now
  let hal ← onMii readHal
  if hal.writeSynced = true then
    let asserted ← dpmDeviceDiscovery
    assert .debug .dpmDeviceStatus (asserted = .on)
    let assertedMode ← dpmDeviceDiscoveryModeEnable
    assert .debug .dpmDeviceStatus (assertedMode = .on)
    let discovery ← dpmDeviceDiscovery
    if discovery = .on then
      let mode ← dpmDeviceDiscoveryModeEnable
      if mode = .on then
        let reg ← onMii readHal
        assert .debug .dpmDeviceStatus (¬(reg.dpmStat = true ∧ reg.mismtch = true))
        return deviceStatusOf reg
      else return .null
    else return .null
  else return .null

/-! ### The rest of the interface -/

/-- `EthMiiPhyMan::ethMiiPhyType`: the PHY is told once. -/
def ethMiiPhyType (type : EthMiiPhyType) : ManagerM σ Unit := do
  let m ← get
  assert .debug .ethMiiPhyType (type ≠ .null ∧ m.mii.phyType = .null)
  modify fun m => { m with mii := { m.mii with phyType := type } }

/-- `forcedDpmDeviceDiscovery( discovery, restartAutoNegotiation )`, with the assertion of the
interface and those of the function. -/
def forcedDpmDeviceDiscovery (discovery : Setting) (restartAutoNegotiation : Bool) :
    ManagerM σ Unit := do
  let m ← get
  -- `dpmDeviceDiscoveryCapable`
  assert .debug .forcedDpmDeviceDiscovery (m.mii.phyType = .bcm5218)
  assert .debug .forcedDpmDeviceDiscovery (discovery = .off ∨ discovery = .on)
  if restartAutoNegotiation = true then
    assert .debug .forcedDpmDeviceDiscovery (m.needToInitializePhy = false)
    modify fun m => { m with lastCompleteTime := none }
    restartStateMachine sm
  else pure ()

/-- `EthMiiPhyMan::onNewConfiguration`: the results are not known any more. -/
def onNewConfiguration : ManagerM σ Unit := do
  let m ← get
  onMii (setResults { assumptions m.mii.results with linkStatus := .null })

/-- A call of the interface, a query with the time at which it is made. -/
inductive Call where
  | ethMiiPhyType (type : EthMiiPhyType)
  | halEthMiiDevice (attached : Bool)
  | param (p : Param)
  | needToWaitForLinkDownOnConfigChange (b : Bool)
  | runMode (rm : RunMode)
  | forcedDpmDeviceDiscovery (discovery : Setting) (restartAutoNegotiation : Bool)
  | negotiationStatus (now : Int)
  | negotiationError
  | remoteFaultIndication (now : Int)
  | linkStatus (now : Int)
  | flowControlMode (now : Int)
  | duplex (now : Int)
  | lineSpeed (now : Int)
  | clockMode (now : Int)
  | loopback (now : Int)
  | linkDownEvents (now : Int)
  | dpmDeviceStatus (now : Int)
  | onNewConfiguration

/-- Perform a call. The result of a query is dropped. -/
def call (passes : Nat) : Call → ManagerM σ Unit
  | .ethMiiPhyType type => ethMiiPhyType type
  | .halEthMiiDevice attached => modify fun m => { m with halEthMiiDevice := attached }
  | .param p => setter p
  | .needToWaitForLinkDownOnConfigChange b =>
      modify fun m => { m with needToWaitForLinkDownOnConfigChange := b }
  | .runMode rm => runMode sm rm
  | .forcedDpmDeviceDiscovery discovery restart => forcedDpmDeviceDiscovery sm discovery restart
  | .negotiationStatus now => discard (negotiationStatus sm passes now)
  | .negotiationError => discard negotiationError
  | .remoteFaultIndication now => discard (remoteFaultIndication sm passes now)
  | .linkStatus now => discard (linkStatus sm passes now)
  | .flowControlMode now => discard (flowControlMode sm passes now)
  | .duplex now => discard (duplex sm passes now)
  | .lineSpeed now => discard (lineSpeed sm passes now)
  | .clockMode now => discard (clockMode sm passes now)
  | .loopback now => discard (loopback sm passes now)
  | .linkDownEvents now => discard (linkDownEvents sm passes now)
  | .dpmDeviceStatus now => discard (dpmDeviceStatus sm passes now)
  | .onNewConfiguration => onNewConfiguration

end MyTestFiles.PhyMan
