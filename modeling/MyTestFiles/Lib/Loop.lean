import Mathlib

/-!
# `MyTestFiles.Lib.Loop`: loops with fuel

A `while` loop of the source is a body that either goes round again with a new state or
leaves with a result. `loop` runs a body on fuel. `loop_rule` is the rule of total
correctness: an invariant that bounds the passes still to come gives a result for every
fuel above the bound. `foldlM_range_rule` is its like for a counted loop, `loop_invariant` is
the rule of partial correctness, `loop_eq_none` the one for a loop that has no result, and
`loopStates` are the states a loop passes through.

Fuel is only a bound on the passes, and a rule of total correctness gives the same result for
every fuel above its bound. A result therefore does not depend on the fuel that a model chose.
`PassOk` is the premise of that rule for one pass: it leaves with a result that is right, or goes
on with a smaller bound.
-/

set_option autoImplicit false

namespace MyTestFiles.Lib

/-- The end of one pass through a loop: go round again, or leave with a result. -/
inductive Pass (σ ρ : Type*) where
  | again (s : σ)
  | done (r : ρ)

section Loop
variable {σ ρ : Type*} (body : σ → Option (Pass σ ρ))

/-- Passes through `body` until one leaves. `none` is a pass that faults, or no fuel. -/
def loop : Nat → σ → Option ρ
  | 0, _ => none
  | fuel + 1, s =>
      match body s with
      | none => none
      | some (.again s') => loop fuel s'
      | some (.done r) => some r

/-- The states at the start of each pass. -/
def loopStates : Nat → σ → List σ
  | 0, _ => []
  | fuel + 1, s =>
      match body s with
      | some (.again s') => s :: loopStates fuel s'
      | _ => [s]

/-- What one pass owes when at most `k` further passes may follow: a state with the
invariant for a smaller bound, or a result with the postcondition. -/
def PassOk (inv : Nat → σ → Prop) (post : ρ → Prop) (k : Nat) (s : σ) : Prop :=
  (∃ s' k', body s = some (.again s') ∧ inv k' s' ∧ k' < k) ∨
    ∃ r, body s = some (.done r) ∧ post r

variable {body}

/-- A pass that goes round again. -/
theorem loop_of_again {s s' : σ} (h : body s = some (.again s')) (fuel : Nat) :
    loop body (fuel + 1) s = loop body fuel s' := by
  simp [loop, h]

/-- A pass that leaves. -/
theorem loop_of_done {s : σ} {r : ρ} (h : body s = some (.done r)) (fuel : Nat) :
    loop body (fuel + 1) s = some r := by
  simp [loop, h]

/-- The rule for a loop: enough fuel gives a result with the postcondition. -/
theorem loop_rule (inv : Nat → σ → Prop) {post : ρ → Prop}
    (hpass : ∀ k s, inv k s → PassOk body inv post k s) {k : Nat} {s : σ} (hs : inv k s)
    {fuel : Nat} (hfuel : k < fuel) :
    ∃ r, loop body fuel s = some r ∧ post r := by
  induction fuel generalizing k s with
  | zero => omega
  | succ fuel ih =>
      rcases hpass k s hs with ⟨s', k', hbody, hs', hlt⟩ | ⟨r, hbody, hr⟩
      · rw [loop_of_again hbody]
        exact ih hs' (by omega)
      · exact ⟨r, loop_of_done hbody fuel, hr⟩

/-- The rule of partial correctness: what a pass preserves holds of every result. -/
theorem loop_invariant (inv : σ → Prop) (post : ρ → Prop)
    (hagain : ∀ s s', inv s → body s = some (.again s') → inv s')
    (hdone : ∀ s r, inv s → body s = some (.done r) → post r) {s : σ} (hs : inv s) {fuel : Nat}
    {r : ρ} (hr : loop body fuel s = some r) : post r := by
  induction fuel generalizing s with
  | zero => simp [loop] at hr
  | succ fuel ih =>
      simp only [loop] at hr
      cases hb : body s with
      | none => simp [hb] at hr
      | some p =>
          cases p with
          | again s' =>
              simp only [hb] at hr
              exact ih (hagain s s' hs hb) hr
          | done r' =>
              simp only [hb, Option.some.injEq] at hr
              exact hdone s r hs (hr ▸ hb)

/-- A pass that faults. -/
theorem loop_of_none {s : σ} (h : body s = none) (fuel : Nat) : loop body fuel s = none := by
  cases fuel with
  | zero => rfl
  | succ fuel => simp [loop, h]

/-- A loop whose passes go round again or fault gives no result. -/
theorem loop_eq_none (inv : σ → Prop)
    (hpass : ∀ s, inv s → body s = none ∨ ∃ s', body s = some (.again s') ∧ inv s') {s : σ}
    (hs : inv s) (fuel : Nat) : loop body fuel s = none := by
  induction fuel generalizing s with
  | zero => rfl
  | succ fuel ih =>
      rcases hpass s hs with hfault | ⟨s', hbody, hs'⟩
      · exact loop_of_none hfault _
      · rw [loop_of_again hbody]
        exact ih hs'

end Loop

/-- A step that gives a value hands it on. -/
theorem bind_of_some {α β : Type*} {x : Option α} {a : α} {f : α → Option β} (h : x = some a) :
    x.bind f = f a := by
  rw [h, Option.bind_some]

/-- The rule for a counted loop: what pass `i` owes is the invariant for `i + 1`. -/
theorem foldlM_range_rule {σ : Type*} {pass : σ → Nat → Option σ} (inv : Nat → σ → Prop) {n : Nat}
    (hpass : ∀ i s, i < n → inv i s → ∃ s', pass s i = some s' ∧ inv (i + 1) s') {s : σ}
    (hs : inv 0 s) : ∃ s', (List.range n).foldlM pass s = some s' ∧ inv n s' := by
  have hpasses : ∀ m ≤ n, ∃ s', (List.range m).foldlM pass s = some s' ∧ inv m s' := by
    intro m hm
    induction m with
    | zero => exact ⟨s, rfl, hs⟩
    | succ m ih =>
        obtain ⟨s₁, hrun, hs₁⟩ := ih (by omega)
        obtain ⟨s₂, hlast, hs₂⟩ := hpass m s₁ (by omega) hs₁
        refine ⟨s₂, ?_, hs₂⟩
        rw [List.range_succ, List.foldlM_append, hrun]
        simpa using hlast
  exact hpasses n (Nat.le_refl n)

/-- The same where pass `i` is known to lead from `state i` to `state (i + 1)`. -/
theorem foldlM_range_eq {σ : Type*} {pass : σ → Nat → Option σ} (state : Nat → σ) {n : Nat}
    (hpass : ∀ i < n, pass (state i) i = some (state (i + 1))) :
    (List.range n).foldlM pass (state 0) = some (state n) := by
  have hstep : ∀ i s, i < n → s = state i → ∃ s', pass s i = some s' ∧ s' = state (i + 1) := by
    intro i s hi hs
    exact ⟨_, hs ▸ hpass i hi, rfl⟩
  obtain ⟨s', hrun, rfl⟩ := foldlM_range_rule (fun i s => s = state i) hstep rfl
  exact hrun

/-! ### Searches that cannot fault -/

section Search
variable {α : Type*} {p : α → Option Bool} {q : α → Bool} {xs : List α}

/-- A search whose tests do not fault. -/
theorem anyM_eq_some (h : ∀ x ∈ xs, p x = some (q x)) : xs.anyM p = some (xs.any q) := by
  induction xs with
  | nil => rfl
  | cons x xs ih =>
      have hx := h x (by simp)
      have hrest := ih fun y hy => h y (by simp [hy])
      cases hq : q x <;> simp [List.anyM, hx, hq, hrest]

/-- A test of all entries whose tests do not fault. -/
theorem allM_eq_some (h : ∀ x ∈ xs, p x = some (q x)) : xs.allM p = some (xs.all q) := by
  induction xs with
  | nil => rfl
  | cons x xs ih =>
      have hx := h x (by simp)
      have hrest := ih fun y hy => h y (by simp [hy])
      cases hq : q x <;> simp [List.allM, hx, hq, hrest]

end Search

end MyTestFiles.Lib
