import MyTestFiles.Proofs.InlinePower.Conservation

/-!
# `MyTestFiles.Proofs.InlinePower.Cdp`: the power that the peer reports and asks for

The two handlers of a neighbour's power figures turn an absolute figure into a delta for
`deleteDpmPdPower` or `newDpmPdPower`. `delete_iff` and `new_iff` say exactly when these two
functions end in a given port, for any surroundings of the port. From them
`cdp_adjusts` gets the exact conditions under which the handlers do what they are for.

A device that consumes more than it was supplied with should be shut down. The handler
takes back the excess instead of the allocation, which is the same only when the device
consumes twice its allocation.

`Adjusts` and `Answers` are what the two handlers are for, and `AdjustsWhen` and `AnswersWhen` are
the conditions, in terms of the port and of the answers of its surroundings. `adjusts_iff` and
`answers_iff` put them together.

* `GivesBack` says that the surroundings take an amount back and that no assertion stops them.
  `Deprives` is a denial that leaves the port without power.
* `Serves` are surroundings that answer every call, and `serves_release` has those of a release
  build. With them the figures alone decide (`cdp_adjusts_of_serves`).
* `not_cdp_adjusts_supplied` is a device with 6 W that consumes 7 W and is left with 5 W.
-/

set_option autoImplicit false

namespace MyTestFiles.Proofs.InlinePower

open MyTestFiles.Lib
open MyTestFiles.InlinePower

section Cdp
variable {ω : Type} {build : Build} {manager : PowerManager ω} {site : Site ω}

/-! ### Taking power back -/

/-- The surroundings take `w` back from a port that keeps `left`, and no assertion stops
them. -/
def GivesBack (build : Build) (manager : PowerManager ω) (rest : ω) (w left : MilliWatts) : Prop :=
  (left = 0 → Sat manager.onPortDtePower rest (fun _ => False) fun _ rest' =>
    (build = .debug → manager.notifyOk = true) ∧
      Sat (manager.deleteInlinePower w) rest' (fun _ => False) fun _ _ => True) ∧
  (left ≠ 0 → Sat (manager.deleteInlinePower w) rest (fun _ => False) fun _ _ => True)

/-- A part of the postcondition that does not speak about the outcome. -/
theorem sat_and_const {ε σ α : Type} {prog : Checked ε σ α} {s : σ} {post : α → σ → Prop}
    {q : Prop} :
    (Sat prog s (fun _ => False) fun a s' => post a s' ∧ q)
      ↔ Sat prog s (fun _ => False) post ∧ q := by
  simp only [Sat]
  cases prog s with
  | ok r => rfl
  | error fn => exact (and_iff_left_of_imp False.elim).symm

/-- A specification that does not depend on the end of the run. -/
theorem sat_const {ε σ α : Type} {prog : Checked ε σ α} {s : σ} {q : Prop} :
    (Sat prog s (fun _ => False) fun _ _ => q) ↔
      (Sat prog s (fun _ => False) fun _ _ => True) ∧ q := by
  rw [← sat_and_const]
  simp only [true_and]

/-- An assertion that must not fail. -/
theorem sat_assert_strict {ε σ : Type} {fn : ε} {p : Prop} [Decidable p] {s : σ}
    {post : Unit → σ → Prop} :
    Sat (assert build fn p) s (fun _ => False) post ↔ (build = .debug → p) ∧ post () s := by
  rw [sat_assert]
  by_cases hp : build = .debug → p
  · have hpass : ¬ (build = .debug ∧ ¬ p) := fun h => h.2 (hp h.1)
    exact ⟨fun h => ⟨hp, h.2 hpass⟩, fun h => ⟨hpass, fun _ => h.2⟩⟩
  · constructor
    · intro h
      exact absurd (fun hdebug => by_contra fun hnot => h.1 ⟨hdebug, hnot⟩) hp
    · intro h
      exact absurd h.1 hp

/-- `deleteDpmPdPower` in state Auto. -/
theorem delete_iff (hauto : site.pp.dpmAdminState = .auto) {w : MilliWatts} (hw : 0 < w)
    (post : MilliWatts → PimPhyport → Prop) :
    (Sat (deleteDpmPdPower build manager w) site (fun _ => False) fun answer site' =>
        post answer site'.pp) ↔
      (build = .debug → w ≤ site.pp.dpmPdPower) ∧
        GivesBack build manager site.rest w (site.pp.dpmPdPower - w) ∧
        post (site.pp.dpmPdPower - w) { site.pp with dpmPdPower := site.pp.dpmPdPower - w } := by
  have hsub : site.pp.dpmPdPower + -w = site.pp.dpmPdPower - w := (sub_eq_add_neg _ _).symm
  simp only [deleteDpmPdPower, turnOffPower, returnPower, addPower, sat_bind, sat_assert_strict,
    sat_get, sat_setPort, sat_pure, sat_ite, sat_around, hauto, hsub]
  generalize post (site.pp.dpmPdPower - w) _ = q
  have hdelete : ∀ rest, (Sat (manager.deleteInlinePower w) rest (fun _ => False) fun _ _ => q) ↔
      (Sat (manager.deleteInlinePower w) rest (fun _ => False) fun _ _ => True) ∧ q :=
    fun rest => sat_const
  simp only [hdelete, ← and_assoc, sat_and_const, GivesBack]
  by_cases hzero : site.pp.dpmPdPower - w = 0
  · simp [hzero, hw, and_assoc]
  · simp [hzero, hw, and_assoc]

/-! ### Asking for power -/

/-- A request that is denied leaves the port without power. -/
def Deprives (build : Build) (manager : PowerManager ω) (rest : ω) (pp : PimPhyport)
    (post : MilliWatts → PimPhyport → Prop) : Prop :=
  if 0 < pp.dpmPdPower then
    GivesBack build manager rest pp.dpmPdPower 0 ∧
      post 0 { pp with dpmPdPower := 0, dpmPdPowerDenied := true }
  else post pp.dpmPdPower { pp with dpmPdPowerDenied := true }

/-- When a denial ends in a given port. -/
theorem deny_iff (hauto : site.pp.dpmAdminState = .auto) (post : MilliWatts → PimPhyport → Prop) :
    (Sat (denyPower build manager) site (fun _ => False) fun _ site' =>
        post site'.pp.dpmPdPower site'.pp) ↔ Deprives build manager site.rest site.pp post := by
  simp only [denyPower, setDenied, sat_bind, sat_setPort, sat_get, sat_ite, Deprives,
    sat_assert_strict, sat_pure]
  by_cases hpower : 0 < site.pp.dpmPdPower
  · have hdelete := @delete_iff ω build manager
      ⟨{ site.pp with dpmPdPowerDenied := true }, site.rest⟩ hauto _ hpower
      fun _ pp => (build = .debug → pp.dpmPdPower = 0) ∧ post pp.dpmPdPower pp
    simp only [hpower, true_implies, not_true_eq_false, false_implies, and_true, if_true]
    rw [hdelete]
    simp
  · simp [hpower]

/-- `newDpmPdPower` in state Auto. -/
theorem new_iff (hauto : site.pp.dpmAdminState = .auto) (hpower : 0 ≤ site.pp.dpmPdPower)
    {w : MilliWatts} (hw : 0 < w) (post : MilliWatts → PimPhyport → Prop) :
    (Sat (newDpmPdPower build manager w) site (fun _ => False) fun answer site' =>
        post answer site'.pp) ↔
      if w + site.pp.dpmPdPower > site.pp.maxDpmPdPower then
        Deprives build manager site.rest site.pp post
      else Sat (manager.newInlinePower w) site.rest (fun _ => False) fun power rest =>
        if power = w then
          post (site.pp.dpmPdPower + power)
            { site.pp with dpmPdPower := site.pp.dpmPdPower + power, dpmPdPowerDenied := false }
        else (build = .debug → power = 0) ∧
          Deprives build manager rest
            { site.pp with dpmPdPower := site.pp.dpmPdPower + power } post := by
  -- every branch ends by reading the power of the port
  simp only [newDpmPdPower, newAutoPower, addPower, setDenied, sat_bind, sat_assert_strict,
    sat_get, hauto, sat_ite, sat_around, sat_setPort, sat_pure]
  have hdeny := fun power rest => @deny_iff ω build manager
    ⟨{ site.pp with dpmPdPower := site.pp.dpmPdPower + power }, rest⟩ hauto post
  simp only [deny_iff hauto post, hdeny, ← ite_prop_iff_and]
  constructor
  · intro h
    exact h.2.2
  · intro h
    exact ⟨fun _ => hw, fun _ => hpower, h⟩

/-! ### The two handlers -/

/-- What `ilpowerPdPowerConsumed` is for: the port of a device that consumes more than its
allocation is shut down, and else the device gets what it consumes. -/
def Adjusts (build : Build) (manager : PowerManager ω) (site : Site ω) (power : MilliWatts) :
    Prop :=
  Sat (ilpowerPdPowerConsumed build manager true power) site (fun _ => False) fun _ site' =>
    site'.pp.dpmPdPower = if power > site.pp.dpmPdPower then 0 else power

/-- What `ilpowerPdPowerRequest` is for: whatever a caller finds where there is no return
value, it answers the new power of the port. That is the request, unless more power is asked
for and denied: then it is 0. -/
def Answers (build : Build) (manager : PowerManager ω) (site : Site ω) (power : MilliWatts) :
    Prop :=
  ∀ noReturn, Sat (ilpowerPdPowerRequest build manager true noReturn power) site
    (fun _ => False) fun answer site' => answer = site'.pp.dpmPdPower ∧
      (power ≤ site.pp.dpmPdPower → answer = power) ∧
      (power > site.pp.dpmPdPower → (answer = power ∧ site'.pp.dpmPdPowerDenied = false) ∨
        (answer = 0 ∧ site'.pp.dpmPdPowerDenied = true))

/-- When a port is left with what its device consumes. -/
def AdjustsWhen (build : Build) (manager : PowerManager ω) (site : Site ω) (power : MilliWatts) :
    Prop :=
  power = site.pp.dpmPdPower ∨
    (power < site.pp.dpmPdPower ∧
      GivesBack build manager site.rest (site.pp.dpmPdPower - power) power) ∨
    (site.pp.dpmPdPower < power ∧ power = 2 * site.pp.dpmPdPower ∧
      GivesBack build manager site.rest site.pp.dpmPdPower 0)

section Handlers
variable (hauto : site.pp.dpmAdminState = .auto) {power : MilliWatts}
include hauto

/-- Less than the allocation: the rest is given back. -/
theorem delete_less (hnonneg : 0 ≤ power) (hless : power < site.pp.dpmPdPower)
    (post : MilliWatts → PimPhyport → Prop) :
    (Sat (deleteDpmPdPower build manager (site.pp.dpmPdPower - power)) site (fun _ => False)
        fun answer site' => post answer site'.pp) ↔
      GivesBack build manager site.rest (site.pp.dpmPdPower - power) power ∧
        post power { site.pp with dpmPdPower := power } := by
  rw [delete_iff hauto (sub_pos.mpr hless), sub_sub_cancel]
  exact and_iff_right fun _ => sub_le_self _ hnonneg

/-- More than the allocation: the excess is taken back. -/
theorem delete_more (hmore : site.pp.dpmPdPower < power) :
    (Sat (deleteDpmPdPower build manager (power - site.pp.dpmPdPower)) site (fun _ => False)
        fun _ site' => site'.pp.dpmPdPower = 0) ↔
      power = 2 * site.pp.dpmPdPower ∧
        GivesBack build manager site.rest site.pp.dpmPdPower 0 := by
  rw [@delete_iff ω build manager site hauto _ (sub_pos.mpr hmore) fun _ pp => pp.dpmPdPower = 0]
  show _ ∧ _ ∧ site.pp.dpmPdPower - (power - site.pp.dpmPdPower) = 0 ↔ _
  constructor
  · rintro ⟨-, hback, hzero⟩
    have hexcess : power - site.pp.dpmPdPower = site.pp.dpmPdPower := (sub_eq_zero.mp hzero).symm
    rw [hexcess, sub_self] at hback
    exact ⟨by rw [two_mul, ← sub_eq_iff_eq_add, hexcess], hback⟩
  · rintro ⟨hdouble, hback⟩
    have hexcess : power - site.pp.dpmPdPower = site.pp.dpmPdPower := by
      rw [hdouble, two_mul, add_sub_cancel_right]
    rw [hexcess, sub_self]
    exact ⟨fun _ => le_refl _, hback, rfl⟩

variable (hpower : 0 ≤ site.pp.dpmPdPower)
include hpower

/-- The exact condition for the first handler. -/
theorem adjusts_iff (hnonneg : 0 ≤ power) :
    Adjusts build manager site power ↔ AdjustsWhen build manager site power := by
  simp only [Adjusts, ilpowerPdPowerConsumed, if_true, sat_bind, sat_get, sat_assert_strict,
    sat_ite, sat_pure, AdjustsWhen]
  rcases lt_trichotomy power site.pp.dpmPdPower with hless | rfl | hmore
  · have hdelete := @delete_less ω build manager site hauto power hnonneg hless
      fun _ pp => pp.dpmPdPower = power
    simp [hless, hless.ne, hpower, not_lt_of_gt hless, hdelete]
  · simp [hpower]
  · have hdelete := @delete_more ω build manager site hauto power hmore
    simp [hmore, hmore.ne', not_lt_of_gt hmore, hpower, hdelete]

/-- When a port has the power that its device asks for, or none. -/
def AnswersWhen (build : Build) (manager : PowerManager ω) (site : Site ω) (power : MilliWatts) :
    Prop :=
  (power < site.pp.dpmPdPower ∧
    GivesBack build manager site.rest (site.pp.dpmPdPower - power) power) ∨
  (site.pp.dpmPdPower < power ∧ site.pp.maxDpmPdPower < power ∧
    (0 < site.pp.dpmPdPower → GivesBack build manager site.rest site.pp.dpmPdPower 0)) ∨
  (site.pp.dpmPdPower < power ∧ power ≤ site.pp.maxDpmPdPower ∧
    Sat (manager.newInlinePower (power - site.pp.dpmPdPower)) site.rest (fun _ => False)
      fun granted rest => granted = power - site.pp.dpmPdPower ∨
        ((build = .debug → granted = 0) ∧ 0 ≤ site.pp.dpmPdPower + granted ∧
          (0 < site.pp.dpmPdPower + granted →
            GivesBack build manager rest (site.pp.dpmPdPower + granted) 0)))

/-- The answer to a request for more power. -/
def AllOrNone (power answer : MilliWatts) (pp : PimPhyport) : Prop :=
  answer = pp.dpmPdPower ∧ ((answer = power ∧ pp.dpmPdPowerDenied = false) ∨
    (answer = 0 ∧ pp.dpmPdPowerDenied = true))

omit hauto hpower in
/-- A denial leaves none where the port had some to give back. -/
theorem deprives_iff (rest : ω) (pp : PimPhyport) :
    Deprives build manager rest pp (AllOrNone power) ↔
      0 ≤ pp.dpmPdPower ∧
        (0 < pp.dpmPdPower → GivesBack build manager rest pp.dpmPdPower 0) := by
  rw [Deprives]
  by_cases hsome : 0 < pp.dpmPdPower
  · simp [hsome, hsome.le, AllOrNone]
  · have hzero : pp.dpmPdPower = 0 ↔ 0 ≤ pp.dpmPdPower :=
      ⟨fun heq => heq.ge, fun hle => le_antisymm (not_lt.mp hsome) hle⟩
    simp [hsome, AllOrNone, hzero]

/-- The exact condition for the second handler. -/
theorem answers_iff (hnonneg : 0 ≤ power) :
    Answers build manager site power ↔ AnswersWhen build manager site power := by
  simp only [Answers, ilpowerPdPowerRequest, if_true, sat_bind, sat_get, sat_assert_strict,
    sat_ite, sat_pure, AnswersWhen]
  -- The device asks for less than it has, for as much, or for more.
  rcases lt_trichotomy power site.pp.dpmPdPower with hless | rfl | hmore
  · have hdelete : (Sat (deleteDpmPdPower build manager (site.pp.dpmPdPower - power)) site
        (fun _ => False) fun answer site' => answer = site'.pp.dpmPdPower ∧ answer = power) ↔ _ :=
      @delete_less ω build manager site hauto power hnonneg hless
        fun answer pp => answer = pp.dpmPdPower ∧ answer = power
    simp [hless, hless.le, hpower, not_lt_of_gt hless, hdelete]
  · -- nothing is returned, and the caller may find anything
    simp only [lt_irrefl, false_implies, true_implies, not_false_eq_true, true_and,
      false_and, or_false, iff_false, not_forall]
    exact ⟨site.pp.dpmPdPower + 1, by simp⟩
  · have hall : ∀ (granted : MilliWatts) (otherwise : Prop),
        (if granted = power - site.pp.dpmPdPower then AllOrNone power (site.pp.dpmPdPower + granted)
          { site.pp with dpmPdPower := site.pp.dpmPdPower + granted, dpmPdPowerDenied := false }
        else otherwise) ↔ granted = power - site.pp.dpmPdPower ∨ otherwise := by
      intro granted otherwise
      by_cases heq : granted = power - site.pp.dpmPdPower
      · rw [if_pos heq, heq]
        exact iff_of_true ⟨rfl, Or.inl ⟨add_sub_cancel _ _, rfl⟩⟩ (Or.inl rfl)
      · rw [if_neg heq]
        exact (or_iff_right heq).symm
    have hnew := @new_iff ω build manager site hauto hpower _ (sub_pos.mpr hmore)
      (AllOrNone power)
    simp only [deprives_iff, sub_add_cancel, hall, gt_iff_lt] at hnew
    have hpost : ∀ answer (pp : PimPhyport), (answer = pp.dpmPdPower ∧
        (answer = power ∧ pp.dpmPdPowerDenied = false ∨
          answer = 0 ∧ pp.dpmPdPowerDenied = true)) ↔ AllOrNone power answer pp :=
      fun _ _ => Iff.rfl
    simp only [hmore, not_le_of_gt hmore, hpower, not_lt_of_gt hmore, implies_true, true_and,
      false_implies, not_true_eq_false, not_false_eq_true, hpost, false_and, false_or,
      forall_const, and_true, hnew]
    by_cases hmax : site.pp.maxDpmPdPower < power
    · simp [hmax, not_le_of_gt hmax]
    · simp [hmax, not_lt.mp hmax]

/-- The two handlers of a port in state Auto do what they are for exactly when the surroundings
take back what they have to, and, for the consumption, the device does not consume more than
its allocation or consumes twice of it, and, for the request, it is not the allocation. -/
theorem cdp_adjusts (hnonneg : 0 ≤ power) :
    (Adjusts build manager site power ↔ AdjustsWhen build manager site power) ∧
      (Answers build manager site power ↔ AnswersWhen build manager site power) :=
  ⟨adjusts_iff hauto hpower hnonneg, answers_iff hauto hpower hnonneg⟩

end Handlers

/-! ### Surroundings that serve every call -/

/-- The surroundings take back any power, and a request is granted in full or not at all. -/
structure Serves (build : Build) (manager : PowerManager ω) : Prop where
  givesBack : ∀ rest w left, 0 < w → GivesBack build manager rest w left
  grants : ∀ rest w, 0 < w → Sat (manager.newInlinePower w) rest (fun _ => False)
    fun granted _ => granted = w ∨ granted = 0

/-- There the figures alone decide. -/
theorem cdp_adjusts_of_serves (hserves : Serves build manager)
    (hauto : site.pp.dpmAdminState = .auto) (hpower : 0 ≤ site.pp.dpmPdPower) {power : MilliWatts}
    (hnonneg : 0 ≤ power) :
    (Adjusts build manager site power ↔
      power ≤ site.pp.dpmPdPower ∨ power = 2 * site.pp.dpmPdPower) ∧
    (Answers build manager site power ↔ power ≠ site.pp.dpmPdPower) := by
  -- The conditions on the surroundings hold for every amount, so only the figures are left.
  rw [adjusts_iff hauto hpower hnonneg, answers_iff hauto hpower hnonneg]
  constructor
  · constructor
    · rintro (heq | ⟨hless, -⟩ | ⟨-, hdouble, -⟩)
      · exact Or.inl heq.le
      · exact Or.inl hless.le
      · exact Or.inr hdouble
    · intro h
      rcases lt_trichotomy power site.pp.dpmPdPower with hless | heq | hmore
      · exact Or.inr (Or.inl ⟨hless, hserves.givesBack _ _ _ (sub_pos.mpr hless)⟩)
      · exact Or.inl heq
      · have hdouble := h.resolve_left (not_le_of_gt hmore)
        have hsome : 0 < site.pp.dpmPdPower := by
          rw [hdouble] at hmore
          linarith
        exact Or.inr (Or.inr ⟨hmore, hdouble, hserves.givesBack _ _ _ hsome⟩)
  · constructor
    · rintro (⟨hless, -⟩ | ⟨hmore, -⟩ | ⟨hmore, -⟩)
      · exact hless.ne
      · exact hmore.ne'
      · exact hmore.ne'
    · intro hne
      rcases lt_or_gt_of_ne hne with hless | hmore
      · exact Or.inl ⟨hless, hserves.givesBack _ _ _ (sub_pos.mpr hless)⟩
      · by_cases hmax : site.pp.maxDpmPdPower < power
        · exact Or.inr (Or.inl ⟨hmore, hmax, hserves.givesBack _ _ _⟩)
        · refine Or.inr (Or.inr ⟨hmore, not_lt.mp hmax, ?_⟩)
          refine (hserves.grants _ _ (sub_pos.mpr hmore)).mono (fun _ h => h) ?_
          rintro granted rest (hall | rfl)
          · exact Or.inl hall
          · refine Or.inr ⟨fun _ => rfl, by rwa [add_zero], ?_⟩
            exact hserves.givesBack _ _ _

end Cdp

/-- In a release build the switch answers all of the power or none. -/
theorem switchNew_release {call : Call} {w : MilliWatts} {switch : PimSwitch} :
    Sat (PimSwitch.newInlinePower .release call w) switch (fun _ => False) fun answer _ =>
      answer = w ∨ answer = 0 := by
  simp only [PimSwitch.newInlinePower, sat_bind, sat_assert, sat_get, sat_ite, sat_modify,
    sat_pure, setExtraNumPowerPorts]
  simp

/-- The switch and the module of a release build serve every call, if the module hands back
the answer of the switch. -/
theorem serves_release {call : Call} (hback : HandsBack call) (m : Nat) :
    Serves .release (powerManager .release call m) where
  givesBack := by
    intro rest w left _
    simp [GivesBack, powerManager, PimSwitch.deleteInlinePower, setExtraNumPowerPorts, sat_ite]
  grants := by
    intro rest w _
    simp only [powerManager, PimModule.newInlinePower, sat_bind, sat_assert, sat_get, adjustExtra,
      sat_modify, sat_pure, hback _]
    exact ⟨fun h => absurd h.1 (by decide), fun _ => switchNew_release⟩

/-- A port with 6 W from a switch with 50 W. -/
def supplied : Site PimSwitch where
  pp := ⟨⟨true, .auto, 20000, true, 0, 0, 0⟩, .ieee0, 6000, false⟩
  rest := ⟨50000, 6000, 0, 100000, 0, -1, [0]⟩

/-- A device that consumes 4 W is left with 4 W. -/
theorem cdp_adjusts_supplied :
    Adjusts .debug (powerManager .debug plainCall 0) supplied 4000 := by
  refine (cdp_adjusts rfl (by decide) (by decide)).1.mpr (Or.inr (Or.inl ⟨by decide, ?_⟩))
  exact ⟨fun hnone => absurd hnone (by decide), fun _ => trivial⟩

/-- A device that consumes 7 W is left with 5 W, and one that asks for the 6 W it has is
answered whatever the caller finds. -/
theorem not_cdp_adjusts_supplied :
    Sat (ilpowerPdPowerConsumed .debug (powerManager .debug plainCall 0) true 7000) supplied
        (fun _ => False) (fun _ site' => site'.pp.dpmPdPower = 5000) ∧
      ¬ Adjusts .debug (powerManager .debug plainCall 0) supplied 7000 ∧
      ¬ Answers .debug (powerManager .debug plainCall 0) supplied 6000 := by
  refine ⟨rfl, fun h => ?_, fun h => ?_⟩
  · have hzero : (5000 : Int) = 0 := h
    exact absurd hzero (by decide)
  · have hanswer : (1 : Int) = 6000 ∧ _ := h 1
    exact absurd hanswer.1 (by decide)

end MyTestFiles.Proofs.InlinePower
