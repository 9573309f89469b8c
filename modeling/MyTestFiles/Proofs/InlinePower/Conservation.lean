import MyTestFiles.InlinePower.Switch

/-!
# `MyTestFiles.Proofs.InlinePower.Conservation`: the pool keeps account of its power

The power in use is kept twice: `currentInlinePowerUsage_` in the switch, and `dpmPdPower`
in the ports. `Conserved` says that the two agree on the ports whose allocation was taken
from the pool.

A function of a port moves power between the port and the pool when the port is in state
Auto, and does not touch the pool otherwise (`Transfers`).

* The pool remembers for each port whether its allocation was taken from it (`pooled`). A port
  whose state agrees with that is `Aligned`. Changing the state of a port that holds power is what
  breaks the agreement.
* A module is asked for power only where the request is not above the maximum of the port
  (`AsksModule`). `HandsBack` and `ChassisThere` are what is expected of it then: it hands on the
  answer of the switch, and the master chassis is there where the switch needs it.
* `KeepsAccount` is the condition on a call. `poolStep_sat` is one step, and `power_conserved` the
  result for every run of such calls.
-/

set_option autoImplicit false

namespace MyTestFiles.Proofs.InlinePower

open MyTestFiles.Lib
open MyTestFiles.InlinePower

/-! ### The switch and the module -/

section Switch
variable {build : Build} {call : Call} {w : MilliWatts} {switch : PimSwitch}

/-- Where a request takes the pool below the low water mark, the master chassis is there. -/
def ChassisThere (call : Call) (switch : PimSwitch) (w : MilliWatts) : Prop :=
  rateAllowed call switch = true →
    switch.currentInlinePowerUsage + w < switch.totalInlinePowerAvailable →
    switch.totalInlinePowerAvailable - (switch.currentInlinePowerUsage + w)
      < switch.lowInlinePowerWaterMark → call.master = true

/-- Power that is given back is no longer in use. -/
theorem switchDelete_sat :
    Sat (PimSwitch.deleteInlinePower build call w) switch (fun _ => True) fun _ switch' =>
      switch'.currentInlinePowerUsage = switch.currentInlinePowerUsage - w := by
  simp [PimSwitch.deleteInlinePower, sat_ite, setExtraNumPowerPorts]

/-- The pool is charged for the power that the switch answers. -/
theorem switchNew_sat (hmaster : ChassisThere call switch w) :
    Sat (PimSwitch.newInlinePower build call w) switch (fun _ => True) fun power switch' =>
      switch'.currentInlinePowerUsage = switch.currentInlinePowerUsage + power := by
  simp only [PimSwitch.newInlinePower, sat_bind, sat_assert, sat_get, sat_ite, sat_modify,
    sat_pure, setExtraNumPowerPorts, grant]
  refine ⟨fun _ => trivial, fun _ => ⟨?_, by simp⟩⟩
  rintro ⟨hrate, hless⟩
  refine ⟨?_, by simp⟩
  intro hlow
  refine ⟨by simp, ?_⟩
  intro hnone
  exact absurd (hmaster hrate hless hlow) hnone

/-- The module hands back the answer of the switch. -/
def HandsBack (call : Call) : Prop := ∀ power, call.moduleReturn power = power

/-- The pool is charged for the power that the module answers, too. -/
theorem moduleNew_sat (hback : HandsBack call) (hmaster : ChassisThere call switch w) (m : Nat) :
    Sat (PimModule.newInlinePower build call m w) switch (fun _ => True) fun power switch' =>
      switch'.currentInlinePowerUsage = switch.currentInlinePowerUsage + power := by
  simp only [PimModule.newInlinePower, sat_bind, sat_assert, sat_get, adjustExtra, sat_modify,
    sat_pure, hback _]
  refine ⟨fun _ => trivial, fun _ => ?_⟩
  exact switchNew_sat hmaster

end Switch

/-! ### One port and the switch -/

section Site
variable {build : Build} {call : Call} {m : Nat} {w : MilliWatts} {site : Site PimSwitch}

/-- What the port gains in state Auto, the pool loses. -/
def Transfers (site site' : Site PimSwitch) : Prop :=
  site'.pp.dpmAdminState = site.pp.dpmAdminState ∧
    site'.rest.currentInlinePowerUsage = site.rest.currentInlinePowerUsage
      + if site.pp.dpmAdminState = .auto then site'.pp.dpmPdPower - site.pp.dpmPdPower else 0

/-- Moves of power compose. -/
theorem Transfers.trans {site₁ site₂ site₃ : Site PimSwitch} (h : Transfers site₁ site₂)
    (h' : Transfers site₂ site₃) : Transfers site₁ site₃ := by
  obtain ⟨hadmin, husage⟩ := h
  obtain ⟨hadmin', husage'⟩ := h'
  refine ⟨hadmin'.trans hadmin, ?_⟩
  rw [husage', husage, hadmin]
  by_cases hauto : site₁.pp.dpmAdminState = .auto
  · simp only [if_pos hauto]
    ring
  · simp only [if_neg hauto]
    ring

/-- A change of the port that touches neither its power nor its administrative state. -/
theorem transfers_of_eq {site' : Site PimSwitch} (hrest : site'.rest = site.rest)
    (hadmin : site'.pp.dpmAdminState = site.pp.dpmAdminState)
    (hpower : site'.pp.dpmPdPower = site.pp.dpmPdPower) : Transfers site site' := by
  refine ⟨hadmin, ?_⟩
  rw [hrest, hpower]
  simp

/-- Turning off the power at the port asks nothing of the pool. -/
theorem turnOffPower_sat :
    Sat (turnOffPower build (powerManager build call m) w) site (fun _ => True)
      fun _ site' => site' = site := by
  simp only [turnOffPower, sat_bind, sat_get, sat_ite, sat_around, sat_assert, sat_pure]
  refine ⟨?_, fun _ => trivial⟩
  intro _
  exact ⟨fun _ => trivial, fun _ => rfl⟩

/-- A port gives its power back in state Auto, and keeps its hands off the pool otherwise. -/
theorem returnPower_sat :
    Sat (returnPower build (powerManager build call m) w) site (fun _ => True)
      fun _ site' => site'.pp = site.pp ∧ site'.rest.currentInlinePowerUsage
        = site.rest.currentInlinePowerUsage - if site.pp.dpmAdminState = .auto then w else 0 := by
  simp only [returnPower, sat_bind, sat_get]
  cases hadmin : site.pp.dpmAdminState with
  | auto =>
      rw [sat_around]
      refine switchDelete_sat.mono (fun _ h => h) ?_
      intro _ switch' husage
      simpa using husage
  | static => simp
  | off => simp

/-- `deleteDpmPdPower` takes the amount from the port. -/
theorem delete_sat :
    Sat (deleteDpmPdPower build (powerManager build call m) w) site (fun _ => True)
      fun _ site' => Transfers site site' ∧
        site'.pp = { site.pp with dpmPdPower := site.pp.dpmPdPower - w } := by
  simp only [deleteDpmPdPower, addPower, sat_bind, sat_assert, sat_get, sat_setPort, sat_pure]
  refine ⟨fun _ => trivial, fun _ => ⟨fun _ => trivial, fun _ => ?_⟩⟩
  refine turnOffPower_sat.mono (fun _ h => h) ?_
  rintro _ _ rfl
  refine returnPower_sat.mono (fun _ h => h) ?_
  rintro _ site' ⟨hpp, husage⟩
  refine ⟨⟨by rw [hpp], ?_⟩, by rw [hpp, ← sub_eq_add_neg]⟩
  rw [husage, hpp]
  by_cases hauto : site.pp.dpmAdminState = .auto
  · simp only [if_pos hauto]
    ring
  · simp only [if_neg hauto]
    ring

/-- A denial moves the power of the port back to the pool. -/
theorem denyPower_sat :
    Sat (denyPower build (powerManager build call m)) site (fun _ => True)
      fun _ site' => Transfers site site' := by
  simp only [denyPower, setDenied, sat_bind, sat_setPort, sat_get, sat_ite, sat_assert, sat_pure]
  have hdenied : Transfers site { site with pp := { site.pp with dpmPdPowerDenied := true } } :=
    transfers_of_eq rfl rfl rfl
  refine ⟨?_, fun _ => hdenied⟩
  intro _
  refine delete_sat.mono (fun _ h => h) ?_
  rintro _ site' ⟨hdelete, -⟩
  exact ⟨fun _ => trivial, fun _ => hdenied.trans hdelete⟩

/-- A reset moves the power of the port back to the pool. A port without power changes nothing
there. -/
theorem reset_sat :
    Sat (resetPort build (powerManager build call m)) site (fun _ => True)
      fun _ site' => Transfers site site' ∧ (¬ site.pp.dpmPdPower > 0 →
        site'.rest = site.rest ∧ site'.pp.dpmPdPower = site.pp.dpmPdPower) := by
  simp only [resetPort, deleteAllPower, setClass, setDenied, sat_bind, sat_setPort, sat_get,
    sat_ite, sat_pure]
  have hclass : Transfers site { site with pp := { site.pp with dpmPdClass := .null } } :=
    transfers_of_eq rfl rfl rfl
  refine ⟨?_, ?_⟩
  · intro hpower
    refine delete_sat.mono (fun _ h => h) ?_
    rintro _ site' ⟨hdelete, -⟩
    exact ⟨(hclass.trans hdelete).trans (transfers_of_eq rfl rfl rfl),
      fun hnone => absurd hpower hnone⟩
  · intro _
    exact ⟨hclass.trans (transfers_of_eq rfl rfl rfl), fun _ => by simp⟩

/-- A request of the port reaches its module: the port is in state Auto, and the request stays
within its maximum. -/
def AsksModule (pp : PimPhyport) (w : MilliWatts) : Prop :=
  pp.dpmAdminState = .auto ∧ w + pp.dpmPdPower ≤ pp.maxDpmPdPower

/-- `newDpmPdPower` in state Auto. The answer of the module matters only where it is asked. -/
theorem newAuto_sat (hauto : site.pp.dpmAdminState = .auto)
    (hback : AsksModule site.pp w → HandsBack call ∧ ChassisThere call site.rest w) :
    Sat (newAutoPower build (powerManager build call m) w) site (fun _ => True)
      fun _ site' => Transfers site site' := by
  simp only [newAutoPower, addPower, setDenied, sat_bind, sat_get, sat_ite, sat_around,
    sat_setPort, sat_assert]
  refine ⟨fun _ => denyPower_sat, ?_⟩
  intro hmax
  obtain ⟨hreturn, hmaster⟩ := hback ⟨hauto, not_lt.mp hmax⟩
  refine (moduleNew_sat hreturn hmaster m).mono (fun _ h => h) ?_
  intro power switch' husage
  -- the port gains what the pool was charged for
  have hgain : Transfers site
      ⟨{ site.pp with dpmPdPower := site.pp.dpmPdPower + power }, switch'⟩ := by
    refine ⟨rfl, ?_⟩
    show switch'.currentInlinePowerUsage = _
    rw [husage, if_pos hauto]
    ring
  refine ⟨fun _ => hgain.trans (transfers_of_eq rfl rfl rfl), ?_⟩
  intro _
  refine ⟨fun _ => trivial, fun _ => denyPower_sat.mono (fun _ h => h) ?_⟩
  intro _ site' hdeny
  exact hgain.trans hdeny

/-- A port in state Static does not touch the pool. -/
theorem newStatic_sat (hstatic : site.pp.dpmAdminState = .static) :
    Sat (newStaticPower build (powerManager build call m) w) site (fun _ => True)
      fun _ site' => Transfers site site' := by
  simp only [newStaticPower, addPower, setDenied, sat_bind, sat_get, sat_ite, sat_setPort]
  refine ⟨fun _ => denyPower_sat, ?_⟩
  intro _
  refine ⟨rfl, ?_⟩
  simp [hstatic]

/-- `newDpmPdPower`. In state Off it does nothing. -/
theorem new_sat (hback : AsksModule site.pp w →
      HandsBack call ∧ ChassisThere call site.rest w) :
    Sat (newDpmPdPower build (powerManager build call m) w) site (fun _ => True)
      fun _ site' => Transfers site site' ∧
        (site.pp.dpmAdminState = .off → site' = site) := by
  simp only [newDpmPdPower, sat_bind, sat_assert, sat_get]
  refine ⟨fun _ => trivial, fun _ => ⟨fun _ => trivial, fun _ => ?_⟩⟩
  cases hadmin : site.pp.dpmAdminState with
  | auto =>
      simp only [sat_bind, sat_get, sat_pure]
      refine (newAuto_sat hadmin hback).mono (fun _ h => h) ?_
      intro _ site' htransfers
      exact ⟨htransfers, by simp⟩
  | static =>
      simp only [sat_bind, sat_get, sat_pure]
      refine (newStatic_sat hadmin).mono (fun _ h => h) ?_
      intro _ site' htransfers
      exact ⟨htransfers, by simp⟩
  | off =>
      simp only [sat_bind, sat_assert, sat_get, sat_pure]
      exact ⟨fun _ => trivial, fun _ => ⟨transfers_of_eq rfl rfl rfl, fun _ => trivial⟩⟩

end Site

/-! ### All ports -/

section Pool
variable {n : Nat} {build : Build} {call : Call} {pool : PowerPool n}

/-- The power of the ports whose allocation was taken from the pool. -/
def pooledPower (pool : PowerPool n) : MilliWatts :=
  ∑ i, if pool.pooled i then (pool.ports i).dpmPdPower else 0

/-- The switch and the ports agree on the power in use. -/
def Conserved (pool : PowerPool n) : Prop :=
  pool.switch.currentInlinePowerUsage = pooledPower pool

instance (pool : PowerPool n) : Decidable (Conserved pool) :=
  inferInstanceAs (Decidable (_ = pooledPower pool))

/-- The port is in state Auto if and only if its allocation was taken from the pool. -/
def Aligned (pool : PowerPool n) (i : Fin n) : Prop :=
  (pool.ports i).dpmAdminState = .auto ↔ pool.pooled i = true

/-- A sum after a change of one term. -/
theorem sum_eq_add_sub {f g : Fin n → Int} (i : Fin n) (h : ∀ j, j ≠ i → g j = f j) :
    ∑ j, g j = ∑ j, f j + (g i - f i) := by
  have hf := Finset.add_sum_erase Finset.univ f (Finset.mem_univ i)
  have hg := Finset.add_sum_erase Finset.univ g (Finset.mem_univ i)
  have hrest : ∑ j ∈ Finset.univ.erase i, g j = ∑ j ∈ Finset.univ.erase i, f j := by
    apply Finset.sum_congr rfl
    intro j hj
    exact h j (Finset.ne_of_mem_erase hj)
  rw [← hf, ← hg, hrest]
  ring

/-- The pool after a call on port `i`. -/
def afterCall (pool : PowerPool n) (i : Fin n) (site : Site PimSwitch) (pooled : Bool) :
    PowerPool n :=
  { pool with
    switch := site.rest
    ports := Function.update pool.ports i site.pp
    pooled := Function.update pool.pooled i pooled }

/-- A call on port `i` conserves power if the pool is charged for what the port gains. -/
theorem conserved_after (h : Conserved pool) {i : Fin n} {site : Site PimSwitch} {pooled : Bool}
    (husage : site.rest.currentInlinePowerUsage = pool.switch.currentInlinePowerUsage
      + ((if pooled then site.pp.dpmPdPower else 0)
        - if pool.pooled i then (pool.ports i).dpmPdPower else 0)) :
    Conserved (afterCall pool i site pooled) := by
  have hsum : pooledPower (afterCall pool i site pooled) = pooledPower pool
      + ((if pooled then site.pp.dpmPdPower else 0)
        - if pool.pooled i then (pool.ports i).dpmPdPower else 0) := by
    have hchange := sum_eq_add_sub
      (f := fun j => if pool.pooled j then (pool.ports j).dpmPdPower else 0)
      (g := fun j => if (afterCall pool i site pooled).pooled j then
        ((afterCall pool i site pooled).ports j).dpmPdPower else 0) i
      (by intro j hj; simp [afterCall, hj])
    simpa [pooledPower, afterCall] using hchange
  rw [Conserved] at h ⊢
  rw [hsum, ← h]
  exact husage

/-- A call that moves no power. -/
theorem conserved_of_same (h : Conserved pool) {i : Fin n} {site : Site PimSwitch}
    (husage : site.rest.currentInlinePowerUsage = pool.switch.currentInlinePowerUsage)
    (hpower : site.pp.dpmPdPower = (pool.ports i).dpmPdPower) :
    Conserved (afterCall pool i site (pool.pooled i)) := by
  apply conserved_after h
  rw [husage, hpower]
  ring

/-- A call on an aligned port. -/
theorem conserved_of_aligned (h : Conserved pool) {i : Fin n} {site : Site PimSwitch}
    (haligned : Aligned pool i) (htransfers : Transfers ⟨pool.ports i, pool.switch⟩ site) :
    Conserved (afterCall pool i site (pool.pooled i)) := by
  apply conserved_after h
  rw [htransfers.2]
  by_cases hpooled : pool.pooled i = true
  · rw [if_pos hpooled, if_pos hpooled, if_pos (haligned.mpr hpooled)]
  · rw [if_neg hpooled, if_neg hpooled, if_neg (fun hauto => hpooled (haligned.mp hauto))]
    ring

/-- `newDpmPdPower`, after which the ghost is the state of the port. -/
theorem conserved_of_new (h : Conserved pool) {i : Fin n} {site : Site PimSwitch}
    (haligned : (pool.ports i).dpmPdPower = 0 ∨ Aligned pool i)
    (htransfers : Transfers ⟨pool.ports i, pool.switch⟩ site) {pooled : Bool}
    (hpooled : pooled = true ↔ (pool.ports i).dpmAdminState = .auto) :
    Conserved (afterCall pool i site pooled) := by
  apply conserved_after h
  have hold : (if pool.pooled i then (pool.ports i).dpmPdPower else 0)
      = if (pool.ports i).dpmAdminState = .auto then (pool.ports i).dpmPdPower else 0 := by
    rcases haligned with hzero | haligned
    · simp [hzero]
    · exact if_congr haligned.symm rfl rfl
  rw [htransfers.2, hold, if_congr hpooled rfl rfl]
  by_cases hauto : (pool.ports i).dpmAdminState = .auto
  · simp only [if_pos hauto]
  · simp only [if_neg hauto]
    ring

/-- A call on port `i` that leaves its ghost alone. -/
theorem onPort_sat {α : Type} {prog : Checked Fn (Site PimSwitch) α} {i : Fin n}
    {post : α → Site PimSwitch → Prop}
    (h : Sat prog ⟨pool.ports i, pool.switch⟩ (fun _ => True) post) :
    Sat (onPort i prog) pool (fun _ => True) fun a pool' =>
      ∃ site, post a site ∧ pool' = afterCall pool i site (pool.pooled i) := by
  simp only [onPort, sat_onPart]
  refine h.mono (fun _ h => h) ?_
  intro a site hpost
  exact ⟨site, hpost, by rw [afterCall, Function.update_eq_self]⟩

/-- An assignment to attributes of a port other than its power. -/
theorem setPort_sat (h : Conserved pool) (i : Fin n) {f : PimPhyport → PimPhyport}
    (hf : (f (pool.ports i)).dpmPdPower = (pool.ports i).dpmPdPower) :
    Sat (onPort i (setPort f)) pool (fun _ => True) fun _ pool' => Conserved pool' := by
  have hset : Sat (setPort f) (⟨pool.ports i, pool.switch⟩ : Site PimSwitch) (fun _ => True)
      fun _ site => site = ⟨f (pool.ports i), pool.switch⟩ := sat_setPort.mpr rfl
  refine (onPort_sat hset).mono (fun _ h => h) ?_
  rintro _ pool' ⟨site, rfl, rfl⟩
  exact conserved_of_same h rfl hf

/-! ### The loop of `totalInlinePowerAvailable` -/

/-- Every port that holds power is aligned. -/
def HoldersAligned (pool : PowerPool n) : Prop :=
  ∀ i, (pool.ports i).dpmPdPower > 0 → Aligned pool i

/-- A change of port `i` that leaves its state and its ghost alone, and takes its power. -/
theorem HoldersAligned.after (h : HoldersAligned pool) {i : Fin n} {site : Site PimSwitch}
    (hpower : site.pp.dpmPdPower = 0) :
    HoldersAligned (afterCall pool i site (pool.pooled i)) := by
  intro j hj
  by_cases hji : j = i
  · subst hji
    simp [afterCall, hpower] at hj
  · have haligned := h j (by simpa [afterCall, hji] using hj)
    simpa [Aligned, afterCall, hji] using haligned

/-- The denial of one port in the pool. -/
theorem denyPort_sat (h : Conserved pool) (haligned : HoldersAligned pool) (i : Fin n) :
    Sat (denyPort build call i) pool (fun _ => True) fun _ pool' =>
      Conserved pool' ∧ HoldersAligned pool' := by
  simp only [denyPort, sat_bind, sat_get, sat_ite, sat_assert, sat_pure]
  refine ⟨?_, fun _ => ⟨h, haligned⟩⟩
  intro _
  refine ⟨?_, fun _ => ⟨h, haligned⟩⟩
  intro hpower
  refine ⟨fun _ => trivial, fun _ => ?_⟩
  refine (onPort_sat delete_sat).mono (fun _ h => h) ?_
  rintro _ pool' ⟨site, ⟨htransfers, hpp⟩, rfl⟩
  -- the port gives back its power, and then only its mark changes
  have hconserved := conserved_of_aligned h (haligned i hpower) htransfers
  have hzero : site.pp.dpmPdPower = 0 := by
    rw [hpp]
    exact sub_self _
  have hport : (afterCall pool i site (pool.pooled i)).ports i = site.pp :=
    Function.update_self ..
  have hdenied : Sat (setDenied true)
      (⟨(afterCall pool i site (pool.pooled i)).ports i, site.rest⟩ : Site PimSwitch)
      (fun _ => True) fun _ site' =>
        site' = ⟨{ site.pp with dpmPdPowerDenied := true }, site.rest⟩ := by
    simp only [setDenied, sat_setPort, hport]
  refine (onPort_sat hdenied).mono (fun _ h => h) ?_
  rintro _ pool' ⟨site', rfl, rfl⟩
  refine ⟨conserved_of_same hconserved rfl ?_, (haligned.after hzero).after hzero⟩
  rw [hport]

/-- The denial of several ports, one after the other. -/
theorem denyPorts_sat (h : Conserved pool) (haligned : HoldersAligned pool)
    (ports : List (Fin n)) :
    Sat (denyPorts build call ports) pool (fun _ => True) fun _ pool' =>
      Conserved pool' := by
  induction ports generalizing pool with
  | nil => exact h
  | cons i ports ih =>
      simp only [denyPorts, sat_bind]
      refine (denyPort_sat h haligned i).mono (fun _ h => h) ?_
      rintro _ pool' ⟨h', haligned'⟩
      exact ih h' haligned'

/-- A change of the total denies ports until the power in use fits, and keeps the account. -/
theorem total_sat (h : Conserved pool) (haligned : HoldersAligned pool) (power : Int) :
    Sat (totalInlinePowerAvailable build call power) pool (fun _ => True) fun _ pool' =>
      Conserved pool' := by
  simp only [totalInlinePowerAvailable, sat_bind, sat_get, sat_ite, sat_assert, sat_modify,
    sat_pure]
  refine ⟨fun _ => trivial, fun _ => ⟨fun _ => h, fun _ => ⟨?_, ?_⟩⟩⟩
  · intro _
    refine (denyPorts_sat ?_ ?_ _).mono (fun _ h => h) ?_
    · exact h
    · exact haligned
    · intro _ pool' hconserved
      exact ⟨fun _ => trivial, fun _ => hconserved⟩
  · intro _
    exact ⟨fun _ => trivial, fun _ => h⟩

/-! ### Steps and runs -/

/-- A call that keeps the account. A call that moves the power of a port is made in state
Auto if and only if that power was taken from the pool. A request that reaches the module gets
the answer of the switch, which finds the master chassis where it needs it. -/
def KeepsAccount (call : Call) (pool : PowerPool n) : PoolOp n → Prop
  | .newDpmPdPower i w =>
      ((pool.ports i).dpmAdminState = .off ∨ (pool.ports i).dpmPdPower = 0 ∨ Aligned pool i) ∧
        (AsksModule (pool.ports i) w → HandsBack call ∧ ChassisThere call pool.switch w)
  | .deleteDpmPdPower i _ => Aligned pool i
  | .totalInlinePowerAvailable _ => HoldersAligned pool
  | .dpmResetState i => (pool.ports i).dpmPdPower > 0 → Aligned pool i
  | _ => True

/-- One step. -/
theorem poolStep_sat (h : Conserved pool) {op : PoolOp n} (hop : KeepsAccount call pool op) :
    Sat (poolStep build call op) pool (fun _ => True) fun _ pool' => Conserved pool' := by
  cases op with
  | newDpmPdPower i w =>
      obtain ⟨haligned, hback⟩ := hop
      simp only [poolStep, sat_bind, sat_get]
      refine (onPort_sat (new_sat hback)).mono (fun _ h => h) ?_
      rintro _ pool' ⟨site, ⟨htransfers, hoff⟩, rfl⟩
      -- the new ghost, over the one that `onPort` keeps
      have hghost : ∀ pooled, Sat (setPooled i pooled)
          (afterCall pool i site (pool.pooled i)) (fun _ => True)
            fun _ pool' => pool' = afterCall pool i site pooled := by
        intro pooled
        simp [setPooled, afterCall]
      cases hadmin : (pool.ports i).dpmAdminState with
      | auto =>
          have hnew : (pool.ports i).dpmPdPower = 0 ∨ Aligned pool i := by
            simpa [hadmin] using haligned
          refine (hghost true).mono (fun _ h => h) ?_
          rintro _ pool' rfl
          exact conserved_of_new h hnew htransfers (by simp [hadmin])
      | static =>
          have hnew : (pool.ports i).dpmPdPower = 0 ∨ Aligned pool i := by
            simpa [hadmin] using haligned
          refine (hghost false).mono (fun _ h => h) ?_
          rintro _ pool' rfl
          exact conserved_of_new h hnew htransfers (by simp [hadmin])
      | off =>
          -- nothing happens
          have hsame := hoff hadmin
          exact conserved_of_same h (by rw [hsame]) (by rw [hsame])
  | deleteDpmPdPower i w =>
      simp only [poolStep, sat_bind, sat_get, sat_pure]
      refine (onPort_sat delete_sat).mono (fun _ h => h) ?_
      rintro _ pool' ⟨site, ⟨htransfers, -⟩, rfl⟩
      exact conserved_of_aligned h hop htransfers
  | totalInlinePowerAvailable power => exact total_sat h hop power
  | dpmResetState i =>
      simp only [poolStep, sat_bind, sat_get]
      refine (onPort_sat reset_sat).mono (fun _ h => h) ?_
      rintro _ pool' ⟨site, ⟨htransfers, hnone⟩, rfl⟩
      by_cases hpower : (pool.ports i).dpmPdPower > 0
      · exact conserved_of_aligned h (hop hpower) htransfers
      · obtain ⟨hrest, hsame⟩ := hnone hpower
        exact conserved_of_same h (by rw [hrest]) hsame
  | dpmAdminState i state => exact setPort_sat h i rfl
  | maxDpmPdPower i w => exact setPort_sat h i rfl
  | waterMarks low high => exact h

/-- No power is in use. -/
def Fresh (pool : PowerPool n) : Prop :=
  pool.switch.currentInlinePowerUsage = 0 ∧ ∀ i, (pool.ports i).dpmPdPower = 0

/-- A switch that has just started has no power in use. -/
theorem Fresh.conserved (h : Fresh pool) : Conserved pool := by
  obtain ⟨husage, hpower⟩ := h
  simp [Conserved, pooledPower, husage, hpower]

/-- The pools that calls meeting `ok` lead to. -/
def Leads (build : Build) (ok : Call → PowerPool n → PoolOp n → Prop) :
    PowerPool n → PowerPool n → Prop :=
  Reachable (fun op : Call × PoolOp n => poolStep build op.1 op.2) fun op pool => ok op.1 pool op.2

/-- In every run whose calls keep the account, the usage of the switch is the power of the
ports whose allocation was taken from the pool; it is 0 once these ports are released. -/
theorem power_conserved {pool₀ : PowerPool n} (hfresh : Fresh pool₀)
    (hrun : Leads build KeepsAccount pool₀ pool) :
    Conserved pool ∧ ((∀ i, pool.pooled i = true → (pool.ports i).dpmPdPower = 0) →
      pool.switch.currentInlinePowerUsage = 0) := by
  have hconserved : Conserved pool := by
    refine Reachable.invariant Conserved hfresh.conserved ?_ hrun
    intro op pool h hop
    exact poolStep_sat h hop
  refine ⟨hconserved, ?_⟩
  intro hreleased
  rw [hconserved, pooledPower]
  apply Finset.sum_eq_zero
  intro i _
  split
  · rename_i hpooled
    exact hreleased i hpooled
  · rfl

/-- A call at time 10 with nothing unusual: the module hands back the answer. -/
def plainCall : Call where
  microTime := 10
  master := true
  moduleReturn := id
  notifyOk := true
  uninitialized := 0
  microsecondsNever := -1
  maxNumPowerAppliedInOneCycle := 4
  minTimeBetweenTwoPowerOnCycles := 1000

/-- A switch with 50 W and one port, which holds nothing. -/
def onePort : PowerPool 1 where
  switch := ⟨50000, 0, 0, 100000, 0, -1, [0]⟩
  ports _ := ⟨⟨true, .auto, 20000, true, 0, 0, 0⟩, .null, 0, false⟩
  module _ := 0
  pooled _ := false

/-- A switch with one idle port has just started. -/
theorem onePort_fresh : Fresh onePort := ⟨rfl, fun _ => rfl⟩

/-- The port gets 6 W, and then gives them back. -/
theorem power_conserved_onePort : ∃ pool, Leads .debug KeepsAccount onePort pool ∧
    pool.switch.currentInlinePowerUsage = 6000 ∧ Conserved pool := by
  have hrun : Leads .debug KeepsAccount onePort _ :=
    Reachable.next (plainCall, .newDpmPdPower 0 6000) .start
      ⟨Or.inr (Or.inl rfl), fun _ => ⟨fun _ => rfl, fun _ _ hlow => absurd hlow (by decide)⟩⟩ rfl
  exact ⟨_, hrun, rfl, (power_conserved onePort_fresh hrun).1⟩

/-- The account is kept in every run. -/
def AlwaysConserved (build : Build) : Prop :=
  ∀ (n : Nat) (pool₀ pool : PowerPool n), Fresh pool₀ →
    Leads build (fun _ _ _ => True) pool₀ pool → Conserved pool

/-- The port gets 6 W in state Auto. In state Static it gives them up, and the pool does not get
them back; in a release build, where nothing stops it, neither does it from state Off. -/
theorem not_alwaysConserved : ¬ AlwaysConserved .debug ∧ ¬ AlwaysConserved .release := by
  constructor
  · intro h
    have hrun : Leads .debug (fun _ _ _ => True) onePort _ :=
      .next (plainCall, .deleteDpmPdPower 0 6000)
        (.next (plainCall, .dpmAdminState 0 .static)
          (.next (plainCall, .newDpmPdPower 0 6000) .start trivial rfl) trivial rfl) trivial rfl
    have hconserved := h 1 onePort _ onePort_fresh hrun
    revert hconserved
    decide
  · intro h
    have hrun : Leads .release (fun _ _ _ => True) onePort _ :=
      .next (plainCall, .dpmResetState 0)
        (.next (plainCall, .dpmAdminState 0 .off)
          (.next (plainCall, .newDpmPdPower 0 6000) .start trivial rfl) trivial rfl) trivial rfl
    have hconserved := h 1 onePort _ onePort_fresh hrun
    revert hconserved
    decide

end Pool

end MyTestFiles.Proofs.InlinePower
