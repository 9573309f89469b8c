import MyTestFiles.InlinePower.Port

/-!
# `MyTestFiles.InlinePower.Switch`: the pool of inline power

The pool is kept in `PimSwitch` and reached through `PimModule`. `poolStep` performs one
call of a function that takes power from the pool or gives it back, on any of `n` ports.

`PimModule::newInlinePower` has no return statement: what its caller reads is an input of
the call (`moduleReturn`). So are the clock, the master chassis, and the constants of the
rate limiter, which are not defined in the repository.

* A request is granted where the limiter allows it and the power in use stays below the total. The
  switch then adds it to `currentInlinePowerUsage_`, and the answer is the whole request or zero.
* Below the low water mark the switch sets the number of extra ports of every module to zero, and
  above the high water mark to `numPowerPortsInLinecard`. It needs the master chassis for both,
  and an assertion fails where there is none.
* `totalInlinePowerAvailable` with a new total denies power to one port after the other until the
  usage fits.
* `pooled` is a ghost: for each port it remembers whether the allocation was taken from the pool.
  No function of the source reads it.
-/

set_option autoImplicit false

namespace MyTestFiles.InlinePower

open MyTestFiles.Lib

/-- The attributes of a `PimSwitch` that inline power uses. -/
structure PimSwitch where
  totalInlinePowerAvailable : MilliWatts
  currentInlinePowerUsage : MilliWatts
  lowInlinePowerWaterMark : MilliWatts
  highInlinePowerWaterMark : MilliWatts
  numPowerAppliedInCurCycle : Nat
  lastPowerOnTime : Int
  /-- `extraNumPowerPorts_` of each module -/
  modules : List Nat
  deriving DecidableEq

/-- What one call reads besides the switch and the ports. -/
structure Call where
  microTime : Int
  /-- `stack_->master()` is there -/
  master : Bool
  /-- what the caller of `PimModule::newInlinePower` gets, for the answer of the switch -/
  moduleReturn : MilliWatts → MilliWatts
  notifyOk : Bool
  uninitialized : MilliWatts
  /-- `MicrosecondsNever` -/
  microsecondsNever : Int
  /-- `MaxNumPowerAppliedInOneCycle` -/
  maxNumPowerAppliedInOneCycle : Nat
  /-- `MinTimeBetweenTwoPowerOnCycles` -/
  minTimeBetweenTwoPowerOnCycles : Int

/-- `numPowerPortsInLinecard` -/
def numPowerPortsInLinecard : Nat := 0

section Switch
variable (build : Build) (call : Call)

/-- `pimModule.extraNumPowerPorts( extra )` for the module of every slot. -/
def setExtraNumPowerPorts (extra : Nat) : Checked Fn PimSwitch Unit :=
  modify fun switch => { switch with modules := switch.modules.map fun _ => extra }

/-- The rate limiter lets a port be powered. -/
def rateAllowed (switch : PimSwitch) : Bool :=
  switch.numPowerAppliedInCurCycle < call.maxNumPowerAppliedInOneCycle ||
    call.microTime - switch.lastPowerOnTime > call.minTimeBetweenTwoPowerOnCycles ||
    switch.lastPowerOnTime == call.microsecondsNever

/-- The switch after it has granted `power`. -/
def grant (power : MilliWatts) (switch : PimSwitch) : PimSwitch :=
  { switch with
    currentInlinePowerUsage := switch.currentInlinePowerUsage + power
    numPowerAppliedInCurCycle :=
      if call.microTime - switch.lastPowerOnTime > call.minTimeBetweenTwoPowerOnCycles then 1
      else switch.numPowerAppliedInCurCycle + 1
    lastPowerOnTime := call.microTime }

/-- `PimSwitch::newInlinePower` -/
def PimSwitch.newInlinePower (power : MilliWatts) : Checked Fn PimSwitch MilliWatts := do
  assert build .switchNewInlinePower (power > 0)
  let switch ← get
  if rateAllowed call switch ∧
      switch.currentInlinePowerUsage + power < switch.totalInlinePowerAvailable then
    modify (grant call power)
    let switch ← get
    -- need to check the lower water mark
    if switch.totalInlinePowerAvailable - switch.currentInlinePowerUsage
        < switch.lowInlinePowerWaterMark then
      if call.master then
        setExtraNumPowerPorts 0
        return power
      else
        assert build .switchNewInlinePower False
        return 0
    else return power
  else return 0

/-- `PimSwitch::deleteInlinePower` -/
def PimSwitch.deleteInlinePower (power : MilliWatts) : Checked Fn PimSwitch Unit := do
  assert build .switchDeleteInlinePower (power > 0)
  assert build .switchDeleteInlinePower ((← get).currentInlinePowerUsage ≥ power)
  modify fun switch =>
    { switch with currentInlinePowerUsage := switch.currentInlinePowerUsage - power }
  let switch ← get
  if switch.totalInlinePowerAvailable - switch.currentInlinePowerUsage
      > switch.highInlinePowerWaterMark then
    if call.master then setExtraNumPowerPorts numPowerPortsInLinecard
    else assert build .switchDeleteInlinePower False

/-- Change `extraNumPowerPorts_` of a module where it is positive. -/
def adjustExtra (module : Nat) (f : Nat → Nat) : Checked Fn PimSwitch Unit :=
  modify fun switch =>
    { switch with modules := switch.modules.modify module fun n => if n > 0 then f n else n }

/-- `PimModule::newInlinePower`. It returns nothing. -/
def PimModule.newInlinePower (module : Nat) (w : MilliWatts) :
    Checked Fn PimSwitch MilliWatts := do
  assert build .moduleNewInlinePower ((← get).modules.getD module 0 = 0)
  adjustExtra module fun n => n - 1
  let power ← PimSwitch.newInlinePower build call w
  adjustExtra module fun n => n + 1
  return call.moduleReturn power

/-- The module and the switch, for a port of that module. -/
def powerManager (module : Nat) : PowerManager PimSwitch where
  newInlinePower := PimModule.newInlinePower build call module
  deleteInlinePower := PimSwitch.deleteInlinePower build call
  onPortDtePower := pure ()
  notifyOk := call.notifyOk
  uninitialized := call.uninitialized

/-- A call of the pool functions of the switch. -/
inductive SwitchOp where
  | newInlinePower (power : MilliWatts)
  | deleteInlinePower (power : MilliWatts)

/-- One call. The answer is the power granted. -/
def switchStep (op : Call × SwitchOp) : Checked Fn PimSwitch MilliWatts :=
  match op.2 with
  | .newInlinePower power => PimSwitch.newInlinePower build op.1 power
  | .deleteInlinePower power => do
      PimSwitch.deleteInlinePower build op.1 power
      return 0

end Switch

/-! ### All ports -/

/-- The switch and its ports. `module` is the module of each port, and `pooled` says whether
its allocation was taken from the pool. -/
structure PowerPool (n : Nat) where
  switch : PimSwitch
  ports : Fin n → PimPhyport
  module : Fin n → Nat
  pooled : Fin n → Bool

section Pool
variable {n : Nat} (build : Build) (call : Call)

/-- A function of one port. -/
def onPort {α : Type} (i : Fin n) (prog : Checked Fn (Site PimSwitch) α) :
    Checked Fn (PowerPool n) α :=
  onPart (fun pool => ⟨pool.ports i, pool.switch⟩)
    (fun pool site =>
      { pool with switch := site.rest, ports := Function.update pool.ports i site.pp }) prog

/-- One round of the loop of `totalInlinePowerAvailable` that denies power to ports. -/
def denyPort (i : Fin n) : Checked Fn (PowerPool n) Unit := do
  let pool ← get
  if pool.switch.currentInlinePowerUsage > pool.switch.totalInlinePowerAvailable then
    let pPower := (pool.ports i).dpmPdPower
    if pPower > 0 then
      assert build .totalInlinePowerAvailable ((pool.ports i).dpmPdPowerDenied = false)
      let _ ← onPort i (deleteDpmPdPower build (powerManager build call (pool.module i)) pPower)
      onPort i (setDenied true)

/-- The ports of a list, one after the other. -/
def denyPorts : List (Fin n) → Checked Fn (PowerPool n) Unit
  | [] => pure ()
  | i :: ports => do
      denyPort build call i
      denyPorts ports

/-- `PimSwitch::totalInlinePowerAvailable` with an argument -/
def totalInlinePowerAvailable (power : Int) : Checked Fn (PowerPool n) Unit := do
  let pool ← get
  assert build .totalInlinePowerAvailable
    (pool.switch.currentInlinePowerUsage ≤ pool.switch.totalInlinePowerAvailable)
  let milliPower := power * 1000
  if milliPower = pool.switch.totalInlinePowerAvailable then return ()
  modify fun pool =>
    { pool with switch := { pool.switch with totalInlinePowerAvailable := milliPower } }
  if pool.switch.currentInlinePowerUsage > milliPower then
    denyPorts build call (List.finRange n)
  let pool ← get
  assert build .totalInlinePowerAvailable
    (pool.switch.currentInlinePowerUsage ≤ pool.switch.totalInlinePowerAvailable)

/-- A call, or a change of the configuration of a port. -/
inductive PoolOp (n : Nat) where
  | newDpmPdPower (i : Fin n) (w : MilliWatts)
  | deleteDpmPdPower (i : Fin n) (w : MilliWatts)
  | totalInlinePowerAvailable (power : Int)
  | dpmResetState (i : Fin n)
  | dpmAdminState (i : Fin n) (state : PimDpmAdminState)
  | maxDpmPdPower (i : Fin n) (w : MilliWatts)
  | waterMarks (low high : MilliWatts)

/-- What is left of the allocation of a port was taken from the pool, or not. -/
def setPooled (i : Fin n) (pooled : Bool) : Checked Fn (PowerPool n) Unit :=
  modify fun pool => { pool with pooled := Function.update pool.pooled i pooled }

/-- One operation. An allocation in state Auto is taken from the pool, and one in state Static
is not. -/
def poolStep : PoolOp n → Checked Fn (PowerPool n) Unit
  | .newDpmPdPower i w => do
      let pool ← get
      let _ ← onPort i (newDpmPdPower build (powerManager build call (pool.module i)) w)
      match (pool.ports i).dpmAdminState with
      | .auto => setPooled i true
      | .static => setPooled i false
      | .off => pure ()
  | .deleteDpmPdPower i w => do
      let pool ← get
      let _ ← onPort i (deleteDpmPdPower build (powerManager build call (pool.module i)) w)
  | .totalInlinePowerAvailable power => totalInlinePowerAvailable build call power
  | .dpmResetState i => do
      let pool ← get
      onPort i (resetPort build (powerManager build call (pool.module i)))
  | .dpmAdminState i state => onPort i (setPort fun pp => { pp with dpmAdminState := state })
  | .maxDpmPdPower i w => onPort i (setPort fun pp => { pp with maxDpmPdPower := w })
  | .waterMarks low high =>
      modify fun pool => { pool with switch := { pool.switch with
        lowInlinePowerWaterMark := low
        highInlinePowerWaterMark := high } }

end Pool

end MyTestFiles.InlinePower
