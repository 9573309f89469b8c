import Mathlib

/-!
# `MyTestFiles.Lib.Run`: runs of a machine, invariants and simulation

A machine is a partial step function: an operation on a state gives the next state and an
output, or a fault. `run` performs a list of operations and collects their outputs.
`run_invariant` lifts what one step preserves to whole runs, and `Simulates.run` lifts a
step-by-step simulation: wherever the abstract machine runs, the concrete one runs with the
same outputs and stays related.

The condition on a run is one on its steps, `RunMeets step ok`: each step is taken in a state in
which `ok` allows it. A fault is the absence of a next state, so "the run does not fault" is that
`run` gives a result.

* `run_history` is for laws about the order of calls. Its invariant may speak of the operations
  and outputs so far, and each output is judged by those before it.
* `run_of_runMeets` compares two machines that are only in step as long as a condition holds,
  which is the form in which a refinement with preconditions is used.
-/

set_option autoImplicit false

namespace MyTestFiles.Lib

section Run
variable {σ τ ι ο : Type*}

/-- The state and the outputs after a list of operations. -/
def run (step : σ → ι → Option (σ × ο)) : σ → List ι → Option (σ × List ο)
  | s, [] => some (s, [])
  | s, i :: is =>
      match step s i with
      | none => none
      | some (s', o) => (run step s' is).map fun r => (r.1, o :: r.2)

/-- The run without steps. -/
@[simp] theorem run_nil (step : σ → ι → Option (σ × ο)) (s : σ) :
    run step s [] = some (s, []) := rfl

/-- A run with one more step at its start. -/
theorem run_cons_of_step {step : σ → ι → Option (σ × ο)} {s s' s'' : σ} {i : ι} {is : List ι}
    {o : ο} {os : List ο} (h : step s i = some (s', o)) (hrest : run step s' is = some (s'', os)) :
    run step s (i :: is) = some (s'', o :: os) := by
  simp [run, h, hrest]

/-- A run of a first operation and some more, taken apart. -/
theorem run_cons_eq_some {step : σ → ι → Option (σ × ο)} {s s'' : σ} {i : ι} {is : List ι}
    {os : List ο} (h : run step s (i :: is) = some (s'', os)) :
    ∃ s' o os', step s i = some (s', o) ∧ run step s' is = some (s'', os') ∧ os = o :: os' := by
  simp only [run] at h
  cases hstep : step s i with
  | none => simp [hstep] at h
  | some r =>
      obtain ⟨s', o⟩ := r
      simp only [hstep, Option.map_eq_some_iff] at h
      obtain ⟨⟨t, os'⟩, hrest, heq⟩ := h
      cases heq
      exact ⟨s', o, os', rfl, hrest, rfl⟩

/-- Two runs one after the other. -/
theorem run_append {step : σ → ι → Option (σ × ο)} {s s' s'' : σ} {is js : List ι}
    {os os' : List ο} (h : run step s is = some (s', os)) (h' : run step s' js = some (s'', os')) :
    run step s (is ++ js) = some (s'', os ++ os') := by
  induction is generalizing s os with
  | nil =>
      cases h
      exact h'
  | cons i is ih =>
      obtain ⟨t, o, os₁, hstep, hrest, rfl⟩ := run_cons_eq_some h
      exact run_cons_of_step hstep (ih hrest)

/-- What every step from a state with the invariant preserves, a run preserves. -/
theorem run_invariant {step : σ → ι → Option (σ × ο)} (inv : σ → Prop) (ok : ι → Prop)
    (hstep : ∀ s i s' o, inv s → ok i → step s i = some (s', o) → inv s')
    {s s' : σ} {is : List ι} {os : List ο} (hs : inv s) (his : ∀ i ∈ is, ok i)
    (hrun : run step s is = some (s', os)) : inv s' := by
  induction is generalizing s os with
  | nil =>
      cases hrun
      exact hs
  | cons i is ih =>
      obtain ⟨t, o, os', hfirst, hrest, -⟩ := run_cons_eq_some hrun
      have ht : inv t := hstep s i t o hs (his i (by simp)) hfirst
      exact ih ht (fun j hj => his j (by simp [hj])) hrest

/-- What every output of a step satisfies, every output of a run satisfies. -/
theorem run_outputs {step : σ → ι → Option (σ × ο)} {post : ο → Prop}
    (hstep : ∀ s i s' o, step s i = some (s', o) → post o)
    {s s' : σ} {is : List ι} {os : List ο} (hrun : run step s is = some (s', os)) :
    ∀ o ∈ os, post o := by
  induction is generalizing s os with
  | nil =>
      cases hrun
      simp
  | cons i is ih =>
      obtain ⟨t, o, os', hfirst, hrest, rfl⟩ := run_cons_eq_some hrun
      intro o' ho'
      rcases List.mem_cons.mp ho' with rfl | hmem
      · exact hstep s i t _ hfirst
      · exact ih hrest o' hmem

/-- Wherever the abstract step is defined, the concrete step from a related state is
defined, has the same output and ends in a related state. -/
def Simulates (step : σ → ι → Option (σ × ο)) (astep : τ → ι → Option (τ × ο))
    (rel : σ → τ → Prop) : Prop :=
  ∀ s t, rel s t → ∀ i t' o, astep t i = some (t', o) →
    ∃ s', step s i = some (s', o) ∧ rel s' t'

/-- A simulation of steps is a simulation of runs. -/
theorem Simulates.run {step : σ → ι → Option (σ × ο)} {astep : τ → ι → Option (τ × ο)}
    {rel : σ → τ → Prop} (h : Simulates step astep rel) {s : σ} {t t' : τ} {is : List ι}
    {os : List ο} (hst : rel s t) (hrun : Lib.run astep t is = some (t', os)) :
    ∃ s', Lib.run step s is = some (s', os) ∧ rel s' t' := by
  induction is generalizing s t os with
  | nil =>
      cases hrun
      exact ⟨s, rfl, hst⟩
  | cons i is ih =>
      obtain ⟨u, o, os', hfirst, hrest, rfl⟩ := run_cons_eq_some hrun
      obtain ⟨v, hv, hvu⟩ := h s t hst i u o hfirst
      obtain ⟨s', hs', hrel⟩ := ih hvu hrest
      exact ⟨s', run_cons_of_step hv hs', hrel⟩

/-- A total abstract step always runs. -/
theorem exists_run_of_total {astep : τ → ι → Option (τ × ο)}
    (htotal : ∀ t i, ∃ t' o, astep t i = some (t', o)) (t : τ) (is : List ι) :
    ∃ t' os, Lib.run astep t is = some (t', os) := by
  induction is generalizing t with
  | nil => exact ⟨t, [], rfl⟩
  | cons i is ih =>
      obtain ⟨u, o, hu⟩ := htotal t i
      obtain ⟨t', os, hrest⟩ := ih u
      exact ⟨t', o :: os, run_cons_of_step hu hrest⟩

/-! ### Runs whose operations meet a condition -/

/-- Each operation meets `ok` in the state in which it is performed. -/
def RunMeets (step : σ → ι → Option (σ × ο)) (ok : σ → ι → Prop) : σ → List ι → Prop
  | _, [] => True
  | s, i :: is => ok s i ∧ ∀ s' o, step s i = some (s', o) → RunMeets step ok s' is

/-- A step that is allowed before a run whose steps are. -/
theorem runMeets_cons {step : σ → ι → Option (σ × ο)} {ok : σ → ι → Prop} {s s' : σ} {i : ι}
    {is : List ι} {o : ο} (hok : ok s i) (hstep : step s i = some (s', o))
    (hrest : RunMeets step ok s' is) : RunMeets step ok s (i :: is) := by
  refine ⟨hok, fun t o' ht => ?_⟩
  rw [hstep] at ht
  cases ht
  exact hrest

/-- The first part of a run whose steps are allowed. -/
theorem RunMeets.of_append {step : σ → ι → Option (σ × ο)} {ok : σ → ι → Prop} {s : σ}
    {is js : List ι} (h : RunMeets step ok s (is ++ js)) : RunMeets step ok s is := by
  induction is generalizing s with
  | nil => trivial
  | cons i is ih => exact ⟨h.1, fun s' o ho => ih (h.2 s' o ho)⟩

/-- What every step that meets `ok` preserves, a run of such steps preserves. -/
theorem RunMeets.invariant {step : σ → ι → Option (σ × ο)} {ok : σ → ι → Prop} (inv : σ → Prop)
    (hstep : ∀ s i s' o, inv s → ok s i → step s i = some (s', o) → inv s')
    {s s' : σ} {is : List ι} {os : List ο} (hs : inv s) (hmeets : RunMeets step ok s is)
    (hrun : run step s is = some (s', os)) : inv s' := by
  induction is generalizing s os with
  | nil =>
      cases hrun
      exact hs
  | cons i is ih =>
      obtain ⟨t, o, os', hfirst, hrest, -⟩ := run_cons_eq_some hrun
      exact ih (hstep s i t o hs hmeets.1 hfirst) (hmeets.2 t o hfirst) hrest

/-- What a run gives, where the invariant speaks of the operations performed so far: each
output satisfies `post` for the operations before it, and the invariant holds in the end. -/
theorem run_history {step : σ → ι → Option (σ × ο)} {ok : σ → ι → Prop}
    (inv : List ι → σ → Prop) (post : List ι → ι → ο → Prop)
    (hstep : ∀ past s i s' o, inv past s → ok s i → step s i = some (s', o) →
      inv (past ++ [i]) s' ∧ post past i o)
    {s s' : σ} {is : List ι} {os : List ο} {start : List ι} (hs : inv start s)
    (hmeets : RunMeets step ok s is) (hrun : run step s is = some (s', os)) :
    inv (start ++ is) s' ∧ ∀ past i future, is = past ++ i :: future →
      ∀ o, os[past.length]? = some o → post (start ++ past) i o := by
  induction is generalizing s os start with
  | nil =>
      cases hrun
      refine ⟨by simpa using hs, ?_⟩
      intro past i future his
      simp at his
  | cons i is ih =>
      obtain ⟨hok, hrest⟩ := hmeets
      obtain ⟨t, o, os', hfirst, hrun', rfl⟩ := run_cons_eq_some hrun
      -- the first step, and the run from there on with one more operation in the past
      obtain ⟨ht, hpost⟩ := hstep start s i t o hs hok hfirst
      obtain ⟨hend, hlater⟩ := ih ht (hrest t o hfirst) hrun'
      refine ⟨by simpa using hend, ?_⟩
      intro past j future his o' ho'
      cases past with
      | nil =>
          simp only [List.nil_append, List.cons.injEq] at his
          obtain ⟨rfl, rfl⟩ := his
          simp only [List.length_nil, List.getElem?_cons_zero, Option.some.injEq] at ho'
          subst ho'
          simpa using hpost
      | cons k past =>
          simp only [List.cons_append, List.cons.injEq] at his
          obtain ⟨rfl, his⟩ := his
          simp only [List.length_cons, List.getElem?_cons_succ] at ho'
          simpa using hlater past j future his o' ho'

/-- Two machines that keep in step on the operations that meet `ok` keep in step on runs of
such operations. -/
theorem run_of_runMeets {step : σ → ι → Option (σ × ο)} {astep : τ → ι → Option (τ × ο)}
    {ok : σ → ι → Prop} {rel : σ → τ → Prop}
    (h : ∀ s t i, rel s t → ok s i →
      ∃ s' t' o, step s i = some (s', o) ∧ astep t i = some (t', o) ∧ rel s' t')
    {s : σ} {t : τ} {is : List ι} (hst : rel s t) (hmeets : RunMeets step ok s is) :
    ∃ s' t' os, run step s is = some (s', os) ∧ run astep t is = some (t', os) ∧ rel s' t' := by
  induction is generalizing s t with
  | nil => exact ⟨s, t, [], rfl, rfl, hst⟩
  | cons i is ih =>
      obtain ⟨hok, hrest⟩ := hmeets
      obtain ⟨s₁, t₁, o, hs, ht, hrel⟩ := h s t i hst hok
      obtain ⟨s', t', os, hrun, harun, hrel'⟩ := ih hrel (hrest s₁ o hs)
      exact ⟨s', t', o :: os, run_cons_of_step hs hrun, run_cons_of_step ht harun, hrel'⟩

end Run

end MyTestFiles.Lib
