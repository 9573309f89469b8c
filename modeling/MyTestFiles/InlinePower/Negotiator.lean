import MyTestFiles.InlinePower.Port

/-!
# `MyTestFiles.InlinePower.Negotiator`: the inline power state machine of a port

`runDpmReview` of `softwaredesign.h`, with the functions of `PimEthAutoNegotiator.cxx` and
`EthMiiPhyMan.cxx` that it calls, in a build with assertions. The state is the port and its
`Negotiator`, which includes the registers of the PHY and of the power controller.

What a review reads from the hardware, the clock and the switch is an input of the review
(`Review`). Attributes that no modelled function reads again are left out, such as the
speeds that are advertised and the results that are reported to the port.

* A review is a function of the state and of its inputs. Every read of the outside has its own
  input, so each may answer anything at each review.
* The functions of the source are definitions of the same names, and `runDpmReview` calls them in
  the order of the source. What they read of the state they read where the source does, behind the
  writes before.
* An assertion has the name of the function that it stands in (`Fn`), so a statement about failing
  assertions can tell the functions apart.
* Times are in microseconds of a clock that does not wrap.
-/

set_option autoImplicit false

namespace MyTestFiles.InlinePower

open MyTestFiles.Lib

/-- `PimDpmState` -/
inductive PimDpmState where
  | null
  | off
  | detecting
  | waitForLinkup
  | linkup
  deriving DecidableEq

/-- `EthDtePower` -/
inductive EthDtePower where
  | on
  | off
  deriving DecidableEq

/-- `EthDtePowerOpStatus` -/
inductive EthDtePowerOpStatus where
  | null
  | on
  | off
  | faulty
  | outOfControl
  deriving DecidableEq

/-- `EthLinkStatus` -/
inductive EthLinkStatus where
  | null
  | up
  | down
  deriving DecidableEq

/-- `EthDpmDeviceDiscoveryModeEnable` and `EthDpmDeviceDiscovery`: a setting of the PHY as it
is read back, `null` while the hardware has not caught up. -/
inductive Setting where
  | null
  | on
  | off
  deriving DecidableEq

/-- `EthDpmDeviceStatus` -/
inductive EthDpmDeviceStatus where
  | null
  | dpmDevicePresent
  | nonDpmDevicePresent
  | nothingDetected
  deriving DecidableEq

/-- The DPM registers of the PHY as they were last written. `inSync` says that
`hardwareWriteVersion() == softwareWriteVersion()`. -/
structure Phy where
  spareControlEnable : Bool
  dpmDetectionEnable : Bool
  inSync : Bool
  deriving DecidableEq

/-- The attributes of a `PimEthAutoNegotiator`, and the hardware that it controls.
`MicrosecondsNever` is `none`. `dpmResets` is not an attribute of the source: it counts the
calls of `dpmResetState` that return. -/
structure Negotiator where
  dpmState : PimDpmState
  dpmDiscoveryModeConfigured : Bool
  powerOnTime : Option Int
  dpmWaitLinkupTimer : Option Int
  dpmDelayCheckTimer : Option Int
  oldAutoNegotiationEnable : Bool
  oldLineSpeedSet : Nat
  oldDuplex : Nat
  dtePowerOutOfControlSampleCounts : Nat
  timeFirstDtePowerOutOfControl : Option Int
  phy : Phy
  dtePowerConfig : EthDtePower
  dpmResets : Nat
  deriving DecidableEq

/-- The outcome of a write to the power controller. A write that reports an error may have
taken effect. -/
inductive DteWrite where
  | ok
  | errorDone
  | errorLost
  deriving DecidableEq

/-- The readings of the clock in a review. -/
inductive ClockReading where
  | delayCheck
  | discoveryStart
  | powerOn
  | linkupTimer
  | propagation
  | outOfControl
  | timeout

/-- What a review reads. -/
structure Review where
  microTime : ClockReading → Int
  /-- the hardware has caught up, at the readings of the two settings, of the device status
  and of the discovery setting for an unknown device -/
  modeSynced : Bool
  discoverySynced : Bool
  statusSynced : Bool
  unknownSynced : Bool
  /-- other registers of the PHY were written since the last review, `runNonDpmReview` writes
  some, and so does `checkAutoNegComplete` -/
  otherWrites : Bool
  reviewWrites : Bool
  autoNegWrites : Bool
  /-- the bits `DPMSTAT` and `DPMMISMATCH` of the PHY -/
  dpmStat : Bool
  mismtch : Bool
  dpmPortClass : PimDpmPdClass
  /-- `eth->linkStatus()`, and the reading after `applyUsersConfig` -/
  linkStatus : EthLinkStatus
  linkStatusLater : EthLinkStatus
  dtePowerStatus : EthDtePowerOpStatus
  dtePowerStatusOk : Bool
  linkWatchOk : Bool
  /-- the first write of the power setting, a second one, and the one of `dpmResetState` -/
  powerWrite : DteWrite
  laterWrite : DteWrite
  resetWrite : DteWrite
  /-- the answer of `module_->newInlinePower` -/
  moduleAnswer : MilliWatts
  uninitialized : MilliWatts
  /-- the notification of the module turns the power off, and reports no error -/
  notifyTurnsOff : Bool
  notifyOk : Bool

/-- What a Cisco phone asks for. -/
def DefaultCiscoInlinePowerPerPort : MilliWatts := 6000
/-- What a device of class 0 asks for. -/
def DefaultIEEE0InlinePowerPerPort : MilliWatts := 15000
/-- What a device of class 1 asks for. -/
def DefaultIEEE1InlinePowerPerPort : MilliWatts := 4000
/-- What a device of class 2 asks for. -/
def DefaultIEEE2InlinePowerPerPort : MilliWatts := 7000
/-- What a device of class 3 asks for. -/
def DefaultIEEE3InlinePowerPerPort : MilliWatts := 15000
/-- What a device of class 4 asks for. -/
def DefaultIEEE4InlinePowerPerPort : MilliWatts := 15000
/-- What a device of class 5 asks for. -/
def DefaultIEEE5InlinePowerPerPort : MilliWatts := 15000

/-- How many reports may come before the detector looks at the clock. -/
def MaxOutOfControlCountsPer30Seconds : Nat := 5
/-- Thirty seconds. -/
def Time30Seconds : Int := 30 * 1000 * 1000
/-- How long to wait after the power is on before the configuration is applied. -/
def MaxWaitTimeForPowerOnPropagation : Int := 100 * 1000
/-- How long a device with power may take to bring the link up. -/
def MaxTimeToLinkUpAfterPowerUp : Int := 8 * 1000 * 1000
/-- How long a denied device waits for the next look at it. -/
def DelayCheckTimeWhenPowerDenied : Int := 3 * 1000 * 1000

/-- A program on the port and its negotiator. -/
abbrev Prog := Checked Fn (Site Negotiator)

/-- An assignment to attributes of the negotiator. -/
def setNegotiator (f : Negotiator → Negotiator) : Prog Unit :=
  modify fun site => { site with rest := f site.rest }

/-- An assignment to `dpmState_`. -/
def setState (state : PimDpmState) : Prog Unit :=
  setNegotiator fun neg => { neg with dpmState := state }

/-! ### The PHY -/

/-- A write to registers of the PHY. -/
def setPhy (f : Phy → Phy) : Prog Unit :=
  setNegotiator fun neg => { neg with phy := f neg.phy }

/-- `forcedDpmDeviceDiscoveryModeEnable` -/
def forcedDpmDeviceDiscoveryModeEnable (on : Bool) : Prog Unit :=
  setPhy fun phy => { phy with spareControlEnable := on, inSync := false }

/-- `forcedDpmDeviceDiscovery`, without the restart of auto-negotiation -/
def forcedDpmDeviceDiscovery (on : Bool) : Prog Unit :=
  setPhy fun phy => { phy with dpmDetectionEnable := on, inSync := false }

/-- Other registers are written, or not. -/
def phyWrites (writes : Bool) : Prog Unit :=
  setPhy fun phy => { phy with inSync := phy.inSync && !writes }

/-- The hardware catches up with the writes, or not. -/
def catchUp (synced : Bool) : Prog Unit :=
  setPhy fun phy => { phy with inSync := phy.inSync || synced }

/-- A bit of the PHY, read back. -/
def Phy.read (phy : Phy) (bit : Bool) : Setting :=
  if phy.inSync then (if bit then .on else .off) else .null

/-- `dpmDeviceDiscoveryModeEnable` -/
def dpmDeviceDiscoveryModeEnable (synced : Bool) : Prog Setting := do
  catchUp synced
  let phy := (← get).rest.phy
  return phy.read phy.spareControlEnable

/-- `dpmDeviceDiscovery` -/
def dpmDeviceDiscovery (synced : Bool) : Prog Setting := do
  catchUp synced
  let phy := (← get).rest.phy
  return phy.read phy.dpmDetectionEnable

/-- `dpmDeviceStatus`. It runs `checkAutoNegComplete` first. -/
def dpmDeviceStatus (e : Review) : Prog EthDpmDeviceStatus := do
  phyWrites e.autoNegWrites
  catchUp e.statusSynced
  let phy := (← get).rest.phy
  if phy.inSync then
    assert .debug .dpmDeviceStatus
      (phy.dpmDetectionEnable = true ∧ phy.spareControlEnable = true)
    -- never ever should both of these flags be set at the same time
    assert .debug .dpmDeviceStatus ((e.dpmStat && e.mismtch) = false)
    return if e.dpmStat then .dpmDevicePresent
      else if e.mismtch then .nonDpmDevicePresent else .nothingDetected
  else return .null

/-! ### Helpers of the state machine -/

/-- What the port functions call during a review. -/
def reviewManager (e : Review) : PowerManager Negotiator where
  newInlinePower _ := pure e.moduleAnswer
  deleteInlinePower _ := pure ()
  onPortDtePower := modify fun neg =>
    { neg with dtePowerConfig := if e.notifyTurnsOff then .off else neg.dtePowerConfig }
  notifyOk := e.notifyOk
  uninitialized := e.uninitialized

/-- `dte->dtePowerConfig( power )`; the result says that no error is reported. -/
def writeDtePower (power : EthDtePower) (write : DteWrite) : Prog Bool := do
  setNegotiator fun neg =>
    { neg with dtePowerConfig := if write = .errorLost then neg.dtePowerConfig else power }
  return write = .ok

/-- `dpmDeviceDiscoveryMode` -/
def dpmDeviceDiscoveryMode (enable : Bool) : Prog Unit := do
  if enable then
    forcedDpmDeviceDiscoveryModeEnable true
    forcedDpmDeviceDiscovery false
  else
    forcedDpmDeviceDiscovery false
    forcedDpmDeviceDiscoveryModeEnable false

/-- `dpmResetState`. Its errors are only logged. -/
def dpmResetState (e : Review) : Prog Unit := do
  let _ ← writeDtePower .off e.resetWrite
  resetPort .debug (reviewManager e)
  dpmDeviceDiscoveryMode false
  setNegotiator fun neg =>
    { neg with
      dpmDiscoveryModeConfigured := false
      dpmState := .off
      dpmResets := neg.dpmResets + 1 }

/-- `recordOldConfiguration` -/
def recordOldConfiguration : Prog Unit :=
  modify fun site => { site with rest := { site.rest with
    oldAutoNegotiationEnable := site.pp.autoNegotiationEnabled
    oldLineSpeedSet := site.pp.permittedLineSpeed
    oldDuplex := site.pp.permittedDuplex } }

/-- `configChangedSinceLastApplied` -/
def configChangedSinceLastApplied (site : Site Negotiator) : Bool :=
  site.pp.autoNegotiationEnabled != site.rest.oldAutoNegotiationEnable ||
    site.rest.oldLineSpeedSet != site.pp.permittedLineSpeed ||
    site.rest.oldDuplex != site.pp.permittedDuplex

/-- `runNonDpmReview`: it may reconfigure the PHY. -/
def runNonDpmReview (e : Review) : Prog Unit := phyWrites e.reviewWrites

/-- `applyUsersConfig` -/
def applyUsersConfig (e : Review) : Prog Unit := do
  recordOldConfiguration
  runNonDpmReview e

/-- `dpmLinkupTimerStart` -/
def dpmLinkupTimerStart (e : Review) : Prog Unit :=
  setNegotiator fun neg => { neg with dpmWaitLinkupTimer := some (e.microTime .linkupTimer) }

/-- `dpmLinkupTimerTimeOut` -/
def dpmLinkupTimerTimeOut (e : Review) : Prog Bool := do
  let site ← get
  match site.rest.dpmWaitLinkupTimer with
  | none => throw .dpmLinkupTimerTimeOut
  | some start =>
      let timeout :=
        if site.pp.dpmPdPower > 0 then MaxTimeToLinkUpAfterPowerUp else site.pp.maxTimeToLinkUp
      return e.microTime .timeout - start > timeout

/-- `dpmDelayCheckTimerTimeOut` -/
def dpmDelayCheckTimerTimeOut (e : Review) : Prog Bool := do
  match (← get).rest.dpmDelayCheckTimer with
  | none => throw .dpmDelayCheckTimerTimeOut
  | some start => return e.microTime .delayCheck - start > DelayCheckTimeWhenPowerDenied

/-- `dtePowerOutOfControl` -/
def dtePowerOutOfControl (e : Review) : Prog Unit := do
  setNegotiator fun neg => { neg with
    dtePowerOutOfControlSampleCounts := neg.dtePowerOutOfControlSampleCounts + 1 }
  let neg := (← get).rest
  let curTime := e.microTime .outOfControl
  if neg.dtePowerOutOfControlSampleCounts = 1 then
    setNegotiator fun neg => { neg with timeFirstDtePowerOutOfControl := some curTime }
  else if neg.dtePowerOutOfControlSampleCounts > MaxOutOfControlCountsPer30Seconds then
    match neg.timeFirstDtePowerOutOfControl with
    | none => throw .dtePowerOutOfControl
    | some first =>
        -- less than 30 seconds: bad hardware
        if curTime - first < Time30Seconds then dpmResetState e
        setNegotiator fun neg => { neg with
          timeFirstDtePowerOutOfControl := some curTime
          dtePowerOutOfControlSampleCounts := 1 }

/-! ### Discovery -/

/-- The body of `restartDiscovery` and `restartCiscoDiscovery`. -/
def restart (fn : Fn) (e : Review) : Prog Unit := do
  let pp := (← get).pp
  -- The Pd class might be cisco if we are denied power and have to restart the discovery.
  assert .debug fn
    (pp.dpmPdClass = .null ∨ (pp.dpmPdClass = .cisco ∧ pp.dpmPdPowerDenied = true))
  assert .debug fn (pp.dpmPdPower = 0)
  forcedDpmDeviceDiscovery true
  recordOldConfiguration
  setNegotiator fun neg => { neg with dpmDelayCheckTimer := some (e.microTime .discoveryStart) }

/-- `restartDiscovery` -/
def restartDiscovery : Review → Prog Unit := restart .restartDiscovery

/-- `restartCiscoDiscovery` -/
def restartCiscoDiscovery : Review → Prog Unit := restart .restartCiscoDiscovery

/-- The part of `runDiscovery` after the device status is read. -/
def classify (e : Review) : EthDpmDeviceStatus → Prog Bool
  | .dpmDevicePresent => do
      if (← get).pp.autoNegotiationEnabled then forcedDpmDeviceDiscovery false
      setClass e.dpmPortClass
      return true
  | .nonDpmDevicePresent => do
      setClass .unknown
      return true
  | .nothingDetected => do
      setClass .null
      return true
  | .null => return false

/-- `!pp->dpmPdPowerDenied() || dpmDelayCheckTimerTimeOut()` -/
def mayLook (e : Review) : Prog Bool := do
  if (← get).pp.dpmPdPowerDenied then dpmDelayCheckTimerTimeOut e else return true

/-- `runDiscovery`. The result is `*newResults`. -/
def runDiscovery (e : Review) : Prog Bool := do
  let site ← get
  assert .debug .runDiscovery (site.rest.dpmState = .detecting)
  if configChangedSinceLastApplied site then
    restartDiscovery e
    return false
  else if (← dpmDeviceDiscovery e.discoverySynced) = .on then
    if ← mayLook e then classify e (← dpmDeviceStatus e) else return false
  else return false

/-! ### The cases of `runDpmReview` -/

/-- The power that a device of a class asks for. -/
def requestPower : PimDpmPdClass → MilliWatts
  | .cisco => DefaultCiscoInlinePowerPerPort
  | .ieee0 => DefaultIEEE0InlinePowerPerPort
  | .ieee1 => DefaultIEEE1InlinePowerPerPort
  | .ieee2 => DefaultIEEE2InlinePowerPerPort
  | .ieee3 => DefaultIEEE3InlinePowerPerPort
  | .ieee4 => DefaultIEEE4InlinePowerPerPort
  | .ieee5 => DefaultIEEE5InlinePowerPerPort
  | .null | .unknown => 0

/-- The lines that leave the discovery mode. -/
def leaveDiscoveryMode : Prog Unit := do
  if (← get).rest.dpmDiscoveryModeConfigured then
    dpmDeviceDiscoveryMode false
    setNegotiator fun neg => { neg with dpmDiscoveryModeConfigured := false }

/-- The lines that reset the state, unless it is Off. -/
def resetUnlessOff (e : Review) : Prog Unit := do
  if (← get).rest.dpmState ≠ .off then dpmResetState e

/-- The lines for a port that is disabled or whose inline power is off. -/
def reviewDisabled (e : Review) : Prog Unit := do
  leaveDiscoveryMode
  resetUnlessOff e
  let pp := (← get).pp
  assert .debug .runDpmReview (pp.dpmPdClass = .null)
  assert .debug .runDpmReview (pp.dpmPdPower = 0)
  assert .debug .runDpmReview (pp.dpmPdPowerDenied = false)
  runNonDpmReview e

/-- `case PimDpmStateNull: case PimDpmStateOff:` -/
def reviewOff (e : Review) : Prog Unit := do
  runNonDpmReview e
  let pp := (← get).pp
  assert .debug .runDpmReview (pp.dpmPdClass = .null)
  assert .debug .runDpmReview (pp.dpmPdPower = 0)
  assert .debug .runDpmReview (pp.dpmPdPowerDenied = false)
  if !(← get).rest.dpmDiscoveryModeConfigured then
    dpmDeviceDiscoveryMode true
    setNegotiator fun neg => { neg with dpmDiscoveryModeConfigured := true }
  else if (← dpmDeviceDiscoveryModeEnable e.modeSynced) = .on then
    -- hw is in discovery enabled mode
    if !e.linkWatchOk then dpmResetState e
    else
      restartDiscovery e
      setState .detecting

/-- A device that was granted power is powered. -/
def applyPower (e : Review) (power : MilliWatts) : Prog Unit := do
  setDenied false
  assert .debug .runDpmReview ((← get).pp.dpmPdPower = power)
  assert .debug .runDpmReview ((← get).rest.dtePowerConfig ≠ .on)
  let ok ← writeDtePower .on e.powerWrite
  assert .debug .runDpmReview ((← get).rest.dtePowerConfig = .on)
  if !ok then dpmResetState e
  else
    forcedDpmDeviceDiscovery false
    applyUsersConfig e
    setNegotiator fun neg => { neg with powerOnTime := some (e.microTime .powerOn) }
    dpmLinkupTimerStart e
    setState .waitForLinkup

/-- A device asks for power. -/
def requestDevicePower (e : Review) (requestPower : MilliWatts) : Prog Unit := do
  let power ← newDpmPdPower .debug (reviewManager e) requestPower
  if power ≠ requestPower then
    let pp := (← get).pp
    assert .debug .runDpmReview (power = 0)
    assert .debug .runDpmReview (pp.dpmPdPower = 0)
    assert .debug .runDpmReview (pp.dpmPdPowerDenied = true)
    restartCiscoDiscovery e
  else applyPower e power

/-- An unknown device needs no power. -/
def awaitUnknown (e : Review) : Prog Unit := do
  setDenied false
  assert .debug .runDpmReview ((← dpmDeviceDiscovery e.unknownSynced) = .on)
  forcedDpmDeviceDiscovery false
  applyUsersConfig e
  dpmLinkupTimerStart e
  setState .waitForLinkup

/-- `case PimDpmStateDetecting:` -/
def reviewDetecting (e : Review) : Prog Unit := do
  let site ← get
  assert .debug .runDpmReview (site.pp.dpmPdClass ≠ .unknown)
  assert .debug .runDpmReview (site.pp.dpmPdPower = 0)
  assert .debug .runDpmReview (site.rest.dpmDiscoveryModeConfigured = true)
  if (← dpmDeviceDiscoveryModeEnable e.modeSynced) = .off then
    -- someone changed the mode when debugging
    assert .debug .runDpmReview False
    dpmResetState e
  else if ← runDiscovery e then
    match (← get).pp.dpmPdClass with
    | .null => setDenied false
    | .unknown => awaitUnknown e
    | pdClass => requestDevicePower e (requestPower pdClass)

/-- The lines that take the class and the power from a port. -/
def releaseDevice (e : Review) : Prog Unit := do
  setClass .null
  deleteAllPower .debug (reviewManager e)
  assert .debug .runDpmReview ((← get).pp.dpmPdPower = 0)
  setDenied false

/-- The lines that shut off a device and detect again. -/
def detectAgain (e : Review) (write : DteWrite) : Prog Unit := do
  releaseDevice e
  if ← writeDtePower .off write then
    restartCiscoDiscovery e
    setState .detecting
  else dpmResetState e

/-- The lines for a powered device in state WaitForLinkup, after the wait for the power
propagation. The result says that the review goes on to the timer. -/
def checkPowered (e : Review) : Prog Bool := do
  applyUsersConfig e
  if !e.dtePowerStatusOk then return false
  else
    match e.dtePowerStatus with
    | .outOfControl => dtePowerOutOfControl e
    | .off => if e.linkStatusLater = .down then detectAgain e e.powerWrite
    | .faulty | .null => pure ()
    | .on => if e.linkStatusLater = .up then setState .linkup
    return true

/-- The lines for a device that asked for power, in state WaitForLinkup. -/
def waitForDevice (e : Review) : Prog Bool := do
  let site ← get
  assert .debug .runDpmReview
    ((site.pp.dpmPdPowerDenied = false ∧ site.pp.dpmPdPower > 0) ∨
      (site.pp.dpmPdPowerDenied = true ∧ site.pp.dpmPdPower = 0))
  if site.pp.dpmPdPowerDenied then
    -- an error is only logged
    let _ ← writeDtePower .off e.powerWrite
    assert .debug .runDpmReview ((← get).pp.dpmPdPower = 0)
    restartCiscoDiscovery e
    setState .detecting
    return true
  else
    match site.rest.powerOnTime with
    | none => return true
    | some start =>
        if e.microTime .propagation - start > MaxWaitTimeForPowerOnPropagation then checkPowered e
        else return true

/-- The lines about the timer of state WaitForLinkup. -/
def checkLinkupTimer (e : Review) : Prog Unit := do
  if (← get).rest.dpmState = .waitForLinkup then
    if ← dpmLinkupTimerTimeOut e then
      if ← writeDtePower .off e.laterWrite then
        releaseDevice e
        restartCiscoDiscovery e
        setState .detecting
      else dpmResetState e

/-- `case PimDpmStateWaitForLinkup:` -/
def reviewWaitForLinkup (e : Review) : Prog Unit := do
  assert .debug .runDpmReview ((← dpmDeviceDiscoveryModeEnable e.modeSynced) ≠ .off)
  let pp := (← get).pp
  match pp.dpmPdClass with
  | .null => do
      assert .debug .runDpmReview False
      checkLinkupTimer e
  | .unknown => do
      assert .debug .runDpmReview (pp.dpmPdPower = 0)
      if e.linkStatus = .up then setState .linkup
      checkLinkupTimer e
  | _ => if ← waitForDevice e then checkLinkupTimer e

/-- The lines that shut down power which the upper layer has denied. The result says that no
error is reported. -/
def shutDeniedPower (e : Review) : Prog Bool := do
  let site ← get
  if site.rest.dtePowerConfig = .on ∧ site.pp.dpmPdPower = 0 then writeDtePower .off e.powerWrite
  else return true

/-- The lines about a device that is out of control, in state Linkup. -/
def checkOutOfControl (e : Review) : Prog Unit := do
  if e.dtePowerStatus = .outOfControl ∧ e.dtePowerStatusOk then dtePowerOutOfControl e

/-- The lines for a device that asked for power, in state Linkup. -/
def monitorDevice (e : Review) : Prog Unit := do
  if !(← shutDeniedPower e) then dpmResetState e
  else
    checkOutOfControl e
    if (← get).rest.dpmState = .linkup ∧ e.linkStatus = .down then detectAgain e e.laterWrite

/-- `case PimDpmStateLinkup:` -/
def reviewLinkup (e : Review) : Prog Unit := do
  assert .debug .runDpmReview ((← dpmDeviceDiscoveryModeEnable e.modeSynced) ≠ .off)
  runNonDpmReview e
  let pp := (← get).pp
  match pp.dpmPdClass with
  | .null => assert .debug .runDpmReview False
  | .unknown =>
      if e.linkStatus ≠ .up then
        assert .debug .runDpmReview (pp.dpmPdPower = 0)
        setClass .null
        restartCiscoDiscovery e
        setState .detecting
  | _ => monitorDevice e

/-- `runDpmReview` -/
def runDpmReview (e : Review) : Prog Unit := do
  phyWrites e.otherWrites
  let site ← get
  if !site.pp.enabled || site.pp.dpmAdminState == .off then reviewDisabled e
  else
    assert .debug .runDpmReview (site.pp.dpmAdminState = .auto)
    match site.rest.dpmState with
    | .null | .off => reviewOff e
    | .detecting => reviewDetecting e
    | .waitForLinkup => reviewWaitForLinkup e
    | .linkup => reviewLinkup e

/-! ### Runs -/

/-- What happens to a port: a review, a change of its configuration, or the upper layer
takes its power away. -/
inductive PortOp where
  | review (e : Review)
  | configure (config : PortConfig)
  | denyPower (e : Review)

/-- One step of a run. -/
def portStep : PortOp → Prog Unit
  | .review e => runDpmReview e
  | .configure config => setPort fun pp => { pp with toPortConfig := config }
  | .denyPower e => do
      let _ ← deleteDpmPdPower .debug (reviewManager e) (← get).pp.dpmPdPower
      setDenied true

end MyTestFiles.InlinePower
