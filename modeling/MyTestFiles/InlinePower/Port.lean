import MyTestFiles.Lib.Checked

/-!
# `MyTestFiles.InlinePower.Port`: the power of one port

`newDpmPdPower` and `deleteDpmPdPower` of `softwaredesign.h`, which ask the module and the
switch around the port for power and give it back. They work on a port together with its
surroundings `ω`, and `PowerManager` is what they call there.

`MilliWatts` is an `Int`. A pointer that is always set (`module_`, `pimPhyport_`) is left out,
with the assertion that it is set.

* Only a port in state Auto asks the pool. In state Static its power is the configured one, and in
  state Off both functions have an assertion that fails.
* Power that is granted comes on top of what the port has. A request that is denied takes away all
  of it.
* What is outside of a port may answer and change in any way, so the results about ports hold for
  any surroundings. `InlinePower.Switch` has the surroundings of the source.

The functions are in the monad of `Lib.Checked`, statement by statement, with an assertion where
the source has one. A variable that the source reads before it has assigned to it is an input
(`uninitialized`).
-/

set_option autoImplicit false

namespace MyTestFiles.InlinePower

open MyTestFiles.Lib

/-- Power, in milliwatts. -/
abbrev MilliWatts := Int

/-- The functions whose assertions are modelled. -/
inductive Fn where
  | newDpmPdPower
  | deleteDpmPdPower
  | moduleNewInlinePower
  | switchNewInlinePower
  | switchDeleteInlinePower
  | totalInlinePowerAvailable
  | ilpowerPdPowerRequest
  | ilpowerPdPowerConsumed
  | dpmDeviceStatus
  | dtePowerOutOfControl
  | runDiscovery
  | restartDiscovery
  | restartCiscoDiscovery
  | dpmLinkupTimerTimeOut
  | dpmDelayCheckTimerTimeOut
  | runDpmReview
  deriving DecidableEq

/-- `PimDpmAdminState` -/
inductive PimDpmAdminState where
  | auto
  | static
  | off
  deriving DecidableEq

/-- `PimDpmPdClass` -/
inductive PimDpmPdClass where
  | null
  | unknown
  | cisco
  | ieee0
  | ieee1
  | ieee2
  | ieee3
  | ieee4
  | ieee5
  deriving DecidableEq

/-- What the user configures on a port. The sets of line speeds and duplex modes are bit
masks. -/
structure PortConfig where
  enabled : Bool
  dpmAdminState : PimDpmAdminState
  maxDpmPdPower : MilliWatts
  autoNegotiationEnabled : Bool
  permittedLineSpeed : Nat
  permittedDuplex : Nat
  maxTimeToLinkUp : Int
  deriving DecidableEq

/-- The attributes of a `PimPhyport` that inline power uses. -/
structure PimPhyport extends PortConfig where
  dpmPdClass : PimDpmPdClass
  dpmPdPower : MilliWatts
  dpmPdPowerDenied : Bool
  deriving DecidableEq

/-- A port and its surroundings. -/
structure Site (ω : Type) where
  pp : PimPhyport
  rest : ω

/-- What the functions of a port call in its surroundings, and what they read there. -/
structure PowerManager (ω : Type) where
  /-- `module_->newInlinePower( w )` -/
  newInlinePower : MilliWatts → Checked Fn ω MilliWatts
  /-- `switch_->deleteInlinePower( w )` -/
  deleteInlinePower : MilliWatts → Checked Fn ω Unit
  /-- `notify->onPortDtePower( this, PimDtePowerOff )`, where there is a `notify` -/
  onPortDtePower : Checked Fn ω Unit
  /-- `ThisErrorReport().errorCode() == Ok` after it -/
  notifyOk : Bool
  /-- The local variable `power` before anything is assigned to it. -/
  uninitialized : MilliWatts

section Port
variable {ω : Type} (build : Build)

/-- A call into the surroundings of the port. -/
def around {α : Type} (prog : Checked Fn ω α) : Checked Fn (Site ω) α :=
  onPart Site.rest (fun site rest => { site with rest := rest }) prog

/-- An assignment to attributes of the port. -/
def setPort (f : PimPhyport → PimPhyport) : Checked Fn (Site ω) Unit :=
  modify fun site => { site with pp := f site.pp }

/-- A program on the surroundings leaves the port alone. -/
@[simp] theorem sat_around {α : Type} {prog : Checked Fn ω α} {site : Site ω} {fails : Fn → Prop}
    {post : α → Site ω → Prop} :
    Sat (around prog) site fails post ↔
      Sat prog site.rest fails fun a rest => post a { site with rest := rest } := sat_onPart

/-- An assignment to the port leaves the surroundings alone. -/
@[simp] theorem sat_setPort {f : PimPhyport → PimPhyport} {site : Site ω} {fails : Fn → Prop}
    {post : Unit → Site ω → Prop} :
    Sat (setPort f) site fails post ↔ post () { site with pp := f site.pp } := Iff.rfl

/-- An assignment to `dpmPdClass_`. -/
def setClass (pdClass : PimDpmPdClass) : Checked Fn (Site ω) Unit :=
  setPort fun pp => { pp with dpmPdClass := pdClass }

/-- An assignment to `dpmPdPowerDenied_`. -/
def setDenied (denied : Bool) : Checked Fn (Site ω) Unit :=
  setPort fun pp => { pp with dpmPdPowerDenied := denied }

/-- An addition to `dpmPdPower_`. -/
def addPower (w : MilliWatts) : Checked Fn (Site ω) Unit :=
  setPort fun pp => { pp with dpmPdPower := pp.dpmPdPower + w }

/-- The lines of `deleteDpmPdPower` that turn off power fast. -/
def turnOffPower (manager : PowerManager ω) (w : MilliWatts) : Checked Fn (Site ω) Unit := do
  if w > 0 ∧ (← get).pp.dpmPdPower = 0 then
    around manager.onPortDtePower
    assert build .deleteDpmPdPower (manager.notifyOk = true)

/-- The lines of `deleteDpmPdPower` that tell the global pool. -/
def returnPower (manager : PowerManager ω) (w : MilliWatts) : Checked Fn (Site ω) Unit := do
  match (← get).pp.dpmAdminState with
  | .auto => around (manager.deleteInlinePower w)
  | .static => pure ()
  | .off => assert build .deleteDpmPdPower False

/-- `PimPhyport::deleteDpmPdPower` -/
def deleteDpmPdPower (manager : PowerManager ω) (w : MilliWatts) :
    Checked Fn (Site ω) MilliWatts := do
  assert build .deleteDpmPdPower ((← get).pp.dpmPdPower ≥ w)
  assert build .deleteDpmPdPower (w > 0)
  addPower (-w)
  turnOffPower build manager w
  returnPower build manager w
  return (← get).pp.dpmPdPower

/-- The lines of `newDpmPdPower` for a request that is denied. -/
def denyPower (manager : PowerManager ω) : Checked Fn (Site ω) Unit := do
  setDenied true
  if (← get).pp.dpmPdPower > 0 then
    let _ ← deleteDpmPdPower build manager (← get).pp.dpmPdPower
    assert build .newDpmPdPower ((← get).pp.dpmPdPower = 0)

/-- The branch of `newDpmPdPower` for state Auto. -/
def newAutoPower (manager : PowerManager ω) (w : MilliWatts) : Checked Fn (Site ω) Unit := do
  let pp := (← get).pp
  if w + pp.dpmPdPower > pp.maxDpmPdPower then denyPower build manager
  else
    let power ← around (manager.newInlinePower w)
    addPower power
    if power = w then setDenied false
    else
      assert build .newDpmPdPower (power = 0)
      denyPower build manager

/-- The branch of `newDpmPdPower` for state Static. -/
def newStaticPower (manager : PowerManager ω) (w : MilliWatts) : Checked Fn (Site ω) Unit := do
  let pp := (← get).pp
  if w + pp.dpmPdPower > pp.maxDpmPdPower then denyPower build manager
  else
    -- nothing has been assigned to `power` here
    addPower manager.uninitialized
    setDenied false

/-- `PimPhyport::newDpmPdPower` -/
def newDpmPdPower (manager : PowerManager ω) (w : MilliWatts) :
    Checked Fn (Site ω) MilliWatts := do
  assert build .newDpmPdPower (w > 0)
  assert build .newDpmPdPower ((← get).pp.dpmPdPower ≥ 0)
  match (← get).pp.dpmAdminState with
  | .auto => newAutoPower build manager w
  | .static => newStaticPower build manager w
  | .off => assert build .newDpmPdPower False
  return (← get).pp.dpmPdPower

/-- `if( pp->dpmPdPower() > 0 ) pp->deleteDpmPdPower( pp->dpmPdPower() );` -/
def deleteAllPower (manager : PowerManager ω) : Checked Fn (Site ω) Unit := do
  if (← get).pp.dpmPdPower > 0 then
    let _ ← deleteDpmPdPower build manager (← get).pp.dpmPdPower

/-- `RkiosPhyport::ilpowerPdPowerRequest`. Without a return statement its caller gets
`noReturn`. -/
def ilpowerPdPowerRequest (manager : PowerManager ω) (dpmSupported : Bool)
    (noReturn power : MilliWatts) : Checked Fn (Site ω) MilliWatts := do
  if dpmSupported = true then
    let allocPower := (← get).pp.dpmPdPower
    assert build .ilpowerPdPowerRequest (allocPower ≥ 0)
    if allocPower > power then deleteDpmPdPower build manager (allocPower - power)
    else if allocPower < power then newDpmPdPower build manager (power - allocPower)
    else return noReturn
  else return noReturn

/-- `RkiosPhyport::ilpowerPdPowerConsumed` -/
def ilpowerPdPowerConsumed (manager : PowerManager ω) (dpmSupported : Bool)
    (power : MilliWatts) : Checked Fn (Site ω) Unit := do
  if dpmSupported = true then
    let allocPower := (← get).pp.dpmPdPower
    assert build .ilpowerPdPowerConsumed (allocPower ≥ 0)
    if allocPower > power then
      let _ ← deleteDpmPdPower build manager (allocPower - power)
    else if allocPower < power then
      -- the device consumes more than we supply
      let _ ← deleteDpmPdPower build manager (power - allocPower)

/-- The lines of `dpmResetState` about the port. -/
def resetPort (manager : PowerManager ω) : Checked Fn (Site ω) Unit := do
  setClass .null
  deleteAllPower build manager
  setDenied false

end Port

end MyTestFiles.InlinePower
