import Mathlib

/-!
# `MyTestFiles.Lib.Checked`: programs with assertions

A `Checked ε σ α` program works on a state `σ` and may stop at a failed assertion, which
has a name in `ε`. In a release build the assertions are compiled out.

`Sat prog s fails post` is the weakest precondition: from the state `s` the program ends
with `post`, or stops at an assertion that `fails` allows. The simp lemmas compute it along
the program, and `Sat.mono` is the rule of consequence that applies the specification of
one function inside another. `whileLoop` and `untilStable` are loops with a bound on their
passes, and their rules take an invariant that bounds the passes still to come.

`Reachable` and `History` are the runs of a machine whose steps are such programs. A
`History` also has the operations performed and their answers, for laws about the order and
the times of events.

A specification is proved by `simp` with these lemmas down to the pure conditions of the program,
and the functions that it calls are replaced by their own specifications on the way. That keeps a
proof as long as the function itself.
-/

set_option autoImplicit false

namespace MyTestFiles.Lib

/-- Whether assertions are compiled in. -/
inductive Build where
  | debug
  | release
  deriving DecidableEq

/-- A program on the state `σ` with assertions named by `ε`. -/
abbrev Checked (ε σ : Type) := StateT σ (Except ε)

section Checked
variable {ε σ τ α β : Type}

/-- `assert( p )`, under the name `fn`. -/
def assert (build : Build) (fn : ε) (p : Prop) [Decidable p] : Checked ε σ Unit :=
  if build = .debug ∧ ¬ p then throw fn else pure ()

/-- A program on a part of the state. -/
def onPart (get : σ → τ) (put : σ → τ → σ) (prog : Checked ε τ α) : Checked ε σ α := fun s =>
  match prog (get s) with
  | .ok (a, t) => .ok (a, put s t)
  | .error fn => .error fn

/-- From `s` the program ends with `post`, or stops at an assertion that `fails` allows. -/
def Sat (prog : Checked ε σ α) (s : σ) (fails : ε → Prop) (post : α → σ → Prop) : Prop :=
  match prog s with
  | .ok (a, s') => post a s'
  | .error fn => fails fn

variable {prog : Checked ε σ α} {f : α → Checked ε σ β} {s : σ} {fails fails' : ε → Prop}
  {post post' : α → σ → Prop} {postβ : β → σ → Prop}

/-- A program that only answers. -/
@[simp] theorem sat_pure (a : α) : Sat (pure a) s fails post ↔ post a s := Iff.rfl

/-- One program after the other. -/
@[simp] theorem sat_bind :
    Sat (prog >>= f) s fails postβ ↔ Sat prog s fails fun a s' => Sat (f a) s' fails postβ := by
  simp only [Sat, bind, StateT.bind, Except.bind]
  cases prog s with
  | error fn => rfl
  | ok r => rfl

/-- A result that is only looked at in another way. -/
theorem sat_map (g : α → β) :
    Sat (g <$> prog) s fails postβ ↔ Sat prog s fails fun a s' => postβ (g a) s' := by
  rw [map_eq_pure_bind, sat_bind]
  rfl

/-- Reading the state. -/
@[simp] theorem sat_get {post : σ → σ → Prop} : Sat get s fails post ↔ post s s := Iff.rfl

/-- Changing the state. -/
@[simp] theorem sat_modify {post : PUnit → σ → Prop} (g : σ → σ) :
    Sat (modify g) s fails post ↔ post ⟨⟩ (g s) := Iff.rfl

/-- A failed assertion stops a debug build. After it the assertion holds, or the build is a
release. -/
@[simp] theorem sat_assert {build : Build} {fn : ε} {p : Prop} [Decidable p]
    {post : Unit → σ → Prop} :
    Sat (assert build fn p) s fails post ↔
      (build = .debug ∧ ¬ p → fails fn) ∧ (¬ (build = .debug ∧ ¬ p) → post () s) := by
  by_cases hp : build = .debug ∧ ¬ p
  · simp [assert, hp, Sat, throw, throwThe, MonadExceptOf.throw, StateT.lift, bind, Except.bind]
  · simp only [assert, hp, if_false, sat_pure, false_implies, not_false_eq_true, true_implies,
      true_and]

/-- A choice between two programs. -/
theorem sat_ite {c : Prop} [Decidable c] {prog' : Checked ε σ α} :
    Sat (if c then prog else prog') s fails post ↔
      (c → Sat prog s fails post) ∧ (¬ c → Sat prog' s fails post) := by
  by_cases hc : c <;> simp [hc]

/-- A program on a part of the state leaves the rest alone. -/
@[simp] theorem sat_onPart {get : σ → τ} {put : σ → τ → σ} {prog : Checked ε τ α} :
    Sat (onPart get put prog) s fails post ↔
      Sat prog (get s) fails fun a t => post a (put s t) := by
  simp only [Sat, onPart]
  cases prog (get s) with
  | error fn => rfl
  | ok r => rfl

/-- The rule of consequence. -/
theorem Sat.mono (h : Sat prog s fails post) (hfails : ∀ fn, fails fn → fails' fn)
    (hpost : ∀ a s', post a s' → post' a s') : Sat prog s fails' post' := by
  simp only [Sat] at h ⊢
  cases hrun : prog s with
  | error fn =>
      rw [hrun] at h
      exact hfails fn h
  | ok r =>
      rw [hrun] at h
      exact hpost r.1 r.2 h

/-- What a specification says of a run that completes. -/
theorem Sat.post_of_ok (h : Sat prog s fails post) {a : α} {s' : σ}
    (hrun : prog s = .ok (a, s')) : post a s' := by
  rwa [Sat, hrun] at h

/-- What a specification says of a run that stops at an assertion. -/
theorem Sat.fails_of_error (h : Sat prog s fails post) {fn : ε} (hrun : prog s = .error fn) :
    fails fn := by
  rwa [Sat, hrun] at h

end Checked

/-! ### Loops -/

section Loops
variable {ε σ κ : Type} [DecidableEq κ]

/-- `while( cond ) body`. A loop that is not over after `passes` passes stops with
`tooLong`. -/
def whileLoop (tooLong : ε) (cond : σ → Bool) (body : Checked ε σ Unit) :
    Nat → Checked ε σ Unit
  | 0 => throw tooLong
  | passes + 1 => do
      let s ← get
      if cond s = true then
        body
        whileLoop tooLong cond body passes
      else pure ()

/-- `do { old = key; body } while( key != old )`. -/
def untilStable (tooLong : ε) (key : σ → κ) (body : Checked ε σ Unit) : Nat → Checked ε σ Unit
  | 0 => throw tooLong
  | passes + 1 => do
      let old ← get
      body
      let s ← get
      if key s = key old then pure ()
      else untilStable tooLong key body passes

variable {tooLong : ε} {body : Checked ε σ Unit} {fails : ε → Prop} {k passes : Nat} {s : σ}

/-- An invariant that bounds the passes to come ends a loop. -/
theorem sat_whileLoop {cond : σ → Bool} (inv : Nat → σ → Prop)
    (hbody : ∀ k s, inv k s → cond s = true →
      Sat body s fails fun _ s' => ∃ k', k' < k ∧ inv k' s')
    (hs : inv k s) (hk : k < passes) :
    Sat (whileLoop tooLong cond body passes) s fails fun _ s' =>
      cond s' = false ∧ ∃ k, inv k s' := by
  induction passes generalizing k s with
  | zero => exact absurd hk (Nat.not_lt_zero _)
  | succ passes ih =>
      rw [whileLoop, sat_bind, sat_get, sat_ite]
      constructor
      · intro hcond
        rw [sat_bind]
        refine (hbody k s hs hcond).mono (fun _ h => h) ?_
        rintro - s' ⟨k', hlt, hs'⟩
        exact ih hs' (by omega)
      · intro hcond
        exact ⟨by simpa using hcond, k, hs⟩

/-- The rule of a loop that ends when a key of the state does not change. The invariant bounds the
passes that are still to come. -/
theorem sat_untilStable {key : σ → κ} (inv : Nat → σ → Prop) (post : σ → Prop)
    (hbody : ∀ k s, inv k s → Sat body s fails fun _ s' =>
      (key s' = key s → post s') ∧ (key s' ≠ key s → ∃ k', k' < k ∧ inv k' s'))
    (hs : inv k s) (hk : k < passes) :
    Sat (untilStable tooLong key body passes) s fails fun _ s' => post s' := by
  induction passes generalizing k s with
  | zero => exact absurd hk (Nat.not_lt_zero _)
  | succ passes ih =>
      rw [untilStable, sat_bind, sat_get, sat_bind]
      refine (hbody k s hs).mono (fun _ h => h) ?_
      rintro - s' ⟨hstable, hchanged⟩
      rw [sat_bind, sat_get, sat_ite]
      constructor
      · intro heq
        exact hstable heq
      · intro hne
        obtain ⟨k', hlt, hs'⟩ := hchanged hne
        exact ih hs' (by omega)

/-- An invariant of the body holds after a loop that may be left unfinished: only `tooLong`
has to be allowed for it. -/
theorem sat_untilStable_of_invariant {key : σ → κ} (inv : σ → Prop) (hlong : fails tooLong)
    (hbody : ∀ s, inv s → Sat body s fails fun _ => inv) (hs : inv s) :
    Sat (untilStable tooLong key body passes) s fails fun _ => inv := by
  induction passes generalizing s with
  | zero => exact hlong
  | succ passes ih =>
      rw [untilStable, sat_bind, sat_get, sat_bind]
      refine (hbody s hs).mono (fun _ h => h) ?_
      rintro - s' hs'
      rw [sat_bind, sat_get, sat_ite]
      exact ⟨fun _ => hs', fun _ => ih hs'⟩

end Loops

/-! ### Runs -/

section Run
variable {ε σ ι : Type} {step : ι → Checked ε σ Unit} {ok : ι → σ → Prop} {s₀ s : σ}

/-- The states that a machine reaches from `s₀` by steps that complete and meet `ok`. -/
inductive Reachable (step : ι → Checked ε σ Unit) (ok : ι → σ → Prop) (s₀ : σ) : σ → Prop where
  | start : Reachable step ok s₀ s₀
  | next {s s' : σ} (i : ι) (h : Reachable step ok s₀ s) (hok : ok i s)
      (hstep : step i s = .ok ((), s')) : Reachable step ok s₀ s'

/-- What every such step preserves, every such run preserves. -/
theorem Reachable.invariant (inv : σ → Prop) (hstart : inv s₀)
    (hstep : ∀ i s, inv s → ok i s → Sat (step i) s (fun _ => True) fun _ => inv)
    (h : Reachable step ok s₀ s) : inv s := by
  induction h with
  | start => exact hstart
  | next i _ hok hrun ih => exact (hstep i _ ih hok).post_of_ok hrun

/-- Perform operations one after the other. -/
def performAll (step : ι → Checked ε σ Unit) : List ι → Checked ε σ Unit
  | [] => pure ()
  | i :: rest => do
      step i
      performAll step rest

/-- What a list of operations leads to is reached, where no step has to meet anything. -/
theorem Reachable.performAll {s' : σ} (ops : List ι)
    (h : Reachable step (fun _ _ => True) s₀ s)
    (hrun : performAll step ops s = .ok ((), s')) :
    Reachable step (fun _ _ => True) s₀ s' := by
  induction ops generalizing s with
  | nil =>
      cases hrun
      exact h
  | cons i rest ih =>
      simp only [Lib.performAll, bind, StateT.bind, Except.bind] at hrun
      cases hstep : step i s with
      | error fn =>
          rw [hstep] at hrun
          cases hrun
      | ok r =>
          rw [hstep] at hrun
          exact ih (h.next i trivial hstep) hrun

end Run

section History
variable {ε σ ι ο : Type} {step : ι → Checked ε σ ο} {ok : List (ι × ο) → ι → Prop} {s₀ s : σ}
  {past : List (ι × ο)}

/-- The operations that a machine has performed from `s₀` on, with their answers, and the
state that they lead to. Each of them completes and meets `ok` after the ones before it. -/
inductive History (step : ι → Checked ε σ ο) (ok : List (ι × ο) → ι → Prop) (s₀ : σ) :
    List (ι × ο) → σ → Prop where
  | start : History step ok s₀ [] s₀
  | next {past : List (ι × ο)} {s s' : σ} {o : ο} (i : ι) (h : History step ok s₀ past s)
      (hok : ok past i) (hstep : step i s = .ok (o, s')) :
      History step ok s₀ (past ++ [(i, o)]) s'

/-- What every such step preserves of the history and the state, every history keeps. -/
theorem History.invariant (inv : List (ι × ο) → σ → Prop) (hstart : inv [] s₀)
    (hstep : ∀ past i s, inv past s → ok past i →
      Sat (step i) s (fun _ => True) fun o s' => inv (past ++ [(i, o)]) s')
    (h : History step ok s₀ past s) : inv past s := by
  induction h with
  | start => exact hstart
  | next i _ hok hrun ih => exact (hstep _ i _ ih hok).post_of_ok hrun

end History

end MyTestFiles.Lib
