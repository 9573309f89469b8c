import MyTestFiles.InlinePower.Results

/-!
# `MyTestFiles.Proofs.InlinePower.Debounce`: when the debounce timer lets a report through

`Debounced` is the law of the link-down debounce over a run of calls. The timestamp
`firstLinkDownTime_` is cleared by a call that finds the link up, but only while the
debounce time is not zero. A stale timestamp breaks the law (`not_alwaysDebounced`), and
`debounced` is the law for the runs that never leave one behind (`NoStale`).

`NoStale` is a condition on the call and on the state before it: where the link is up, the
debounce time is not zero or there is no timestamp. A run in which the debounce time is never zero
meets it.

* `DownSince` and `Justified` speak of the calls alone and not of the timestamp, so the law can be
  checked on a history. The connection with the state is `Timely`: the timestamp is the time of a
  call since which the link has been down.
* `stale_breaks` shows that one stale timestamp is enough. The next call that finds the link down
  with a debounce time reports it, although the call before found the link up.
* The law is about calls with a debounce time that is not zero. With zero every call reports what
  it finds.
-/

set_option autoImplicit false

namespace MyTestFiles.Proofs.InlinePower

open MyTestFiles.Lib
open MyTestFiles.InlinePower

/-! ### The law -/

/-- The link was down at each call since one that was made at `time`. -/
def DownSince (past : List UpdateCall) (time : Int) : Prop :=
  ∃ pre call post, past = pre ++ call :: post ∧ call.currentTime = time ∧
    ∀ c ∈ call :: post, c.linked = false

/-- A debounced call reports the link down only after an uninterrupted down period that is
longer than the debounce time. -/
def Justified (past : List UpdateCall) (call : UpdateCall) (reported : Option Bool) : Prop :=
  call.debounceTime > 0 → reported = some false →
    call.linked = false ∧ ∃ time, DownSince past time ∧ call.currentTime - time > call.debounceTime

/-- Every call of a run is justified by the calls before it. -/
def Debounced (calls : List UpdateCall) (reports : List (Option Bool)) : Prop :=
  ∀ past call future, calls = past ++ call :: future →
    ∀ reported, reports[past.length]? = some reported → Justified past call reported

/-- A call that finds the link up leaves no timestamp behind: the debounce time is not zero,
or there is no timestamp. -/
def NoStale (reporter : Reporter) (call : UpdateCall) : Prop :=
  call.linked = true → call.debounceTime > 0 ∨ reporter.firstLinkDownTime = none

/-- A timestamp tells how long the link has been down. -/
def Timely (past : List UpdateCall) (reporter : Reporter) : Prop :=
  ∀ first, reporter.firstLinkDownTime = some first → DownSince past first

/-! ### One call -/

section Call
variable {build : Build} {reporter reporter' : Reporter} {past : List UpdateCall}
  {call : UpdateCall} {reported : Option Bool} {time : Int}

/-- A down period goes on with one more call that finds the link down. -/
theorem DownSince.snoc (h : DownSince past time) (hcall : call.linked = false) :
    DownSince (past ++ [call]) time := by
  obtain ⟨pre, c, post, rfl, htime, hdown⟩ := h
  refine ⟨pre, c, post ++ [call], by simp, htime, fun d hd => ?_⟩
  simp only [List.mem_cons, List.mem_append, List.not_mem_nil, or_false] at hd
  rcases hd with rfl | hd | rfl
  · exact hdown d (by simp)
  · exact hdown d (by simp [hd])
  · exact hcall

/-- A call without a stale timestamp keeps the invariant, and a link that it reports down has been
down long enough. -/
theorem update_spec (h : Timely past reporter) (hstale : NoStale reporter call)
    (hrun : updateResultsFromAutoNegotiation build reporter call = some (reporter', reported)) :
    Timely (past ++ [call]) reporter' ∧ Justified past call reported := by
  have hkeep : ∀ first, reporter.firstLinkDownTime = some first → call.linked = false →
      DownSince (past ++ [call]) first := fun first hfirst hdown => (h first hfirst).snoc hdown
  simp only [updateResultsFromAutoNegotiation] at hrun
  cases hlinked : call.linked with
  | true =>
      rw [if_pos hlinked] at hrun
      split at hrun
      next => cases hrun
      next =>
        cases hrun
        -- the timestamp is gone, by the branch or by the condition
        refine ⟨fun first hfirst => ?_, fun _ hreported => by cases hreported⟩
        simp only at hfirst
        rcases hstale hlinked with hpos | hnone
        · rw [if_pos hpos] at hfirst
          cases hfirst
        · rw [hnone, ite_self] at hfirst
          cases hfirst
  | false =>
      rw [if_neg (by simp [hlinked])] at hrun
      split at hrun
      next hpos =>
        split at hrun
        next hnone =>
          cases hrun
          refine ⟨fun first hfirst => ?_, fun _ hreported => by cases hreported⟩
          cases hfirst
          exact ⟨past, call, [], rfl, rfl, by simpa using hlinked⟩
        next first hfirst =>
          split at hrun
          next =>
            cases hrun
            exact ⟨fun t ht => hkeep t ht hlinked, fun _ hreported => by cases hreported⟩
          next hlong =>
            cases hrun
            exact ⟨fun t ht => hkeep t ht hlinked,
              fun _ _ => ⟨hlinked, first, h first hfirst, by omega⟩⟩
      next hzero =>
        cases hrun
        exact ⟨fun t ht => hkeep t ht hlinked, fun hpos => absurd hpos hzero⟩

/-- After a stale timestamp one later call that finds the link down is enough: it reports,
although the call before it found the link up. -/
theorem stale_breaks {first : Int} (hfirst : reporter.firstLinkDownTime = some first)
    (hlinked : call.linked = true) (hzero : ¬ call.debounceTime > 0)
    (hrun : updateResultsFromAutoNegotiation build reporter call = some (reporter', reported))
    {later : UpdateCall} (hdown : later.linked = false) (hpos : later.debounceTime > 0)
    (hlate : later.currentTime - first > later.debounceTime) :
    ∃ reporter'', updateResultsFromAutoNegotiation build reporter' later =
        some (reporter'', some false) ∧ ¬ Justified (past ++ [call]) later (some false) := by
  have hkept : reporter'.firstLinkDownTime = some first := by
    simp only [updateResultsFromAutoNegotiation] at hrun
    rw [if_pos hlinked, if_neg hzero] at hrun
    split at hrun
    next => cases hrun
    next =>
      cases hrun
      exact hfirst
  refine ⟨{ reporter' with port := reportDown later.neg }, ?_, fun h => ?_⟩
  · rw [updateResultsFromAutoNegotiation, if_neg (by simp [hdown]), if_pos hpos, hkept]
    exact if_neg (by omega)
  · -- a down period that reaches the later call includes the call before it
    obtain ⟨-, time, ⟨pre, c, post, heq, -, hall⟩, -⟩ := h hpos rfl
    have hlast : call ∈ c :: post := by
      have hend := congrArg List.getLast? heq
      rw [List.getLast?_concat, List.getLast?_append_cons] at hend
      exact List.mem_of_getLast? hend.symm
    have hno := hall call hlast
    rw [hlinked] at hno
    cases hno

end Call

/-! ### Runs -/

section Run
variable {build : Build} {start reporter' : Reporter} {calls : List UpdateCall}
  {reports : List (Option Bool)}

/-- The law holds of every run from a new negotiator that leaves no stale timestamp. -/
theorem debounced (hstart : start.firstLinkDownTime = none)
    (hmeets : RunMeets (updateResultsFromAutoNegotiation build) NoStale start calls)
    (hrun : run (updateResultsFromAutoNegotiation build) start calls = some (reporter', reports)) :
    Debounced calls reports := by
  have hnew : Timely [] start := fun first hfirst => by simp [hstart] at hfirst
  have hall := run_history Timely Justified
    (fun past s i s' o hs hok hstep => update_spec hs hok hstep) hnew hmeets hrun
  intro past call future hcalls reported hreported
  exact hall.2 past call future hcalls reported hreported

/-- The reading of a link that is up. -/
def linkUp : NegotiatorReading :=
  ⟨.up, .full, .speed100Mbps, .off, .none, .null, .null, .none, 0⟩

/-- The reading of a link that is down. -/
def linkDown : NegotiatorReading :=
  ⟨.down, .null, .null, .null, .null, .null, .null, .null, 1⟩

/-- The reporter before its first call. -/
def newReporter : Reporter where
  firstLinkDownTime := none
  port := ⟨false, .null, .null, .null, .null, .null, .null, 0, .null⟩

/-- A flap that is ignored, a longer down time that is reported, and a time without
debounce. -/
theorem debounced_flap :
    ∃ reporter, run (updateResultsFromAutoNegotiation .debug) newReporter
        [⟨0, 30, linkUp⟩, ⟨10, 30, linkDown⟩, ⟨20, 30, linkUp⟩, ⟨30, 30, linkDown⟩,
          ⟨70, 30, linkDown⟩] =
        some (reporter, [some true, none, some true, none, some false]) ∧
      Debounced [⟨0, 30, linkUp⟩, ⟨10, 30, linkDown⟩, ⟨20, 30, linkUp⟩, ⟨30, 30, linkDown⟩,
        ⟨70, 30, linkDown⟩] [some true, none, some true, none, some false] := by
  have hrun : run (updateResultsFromAutoNegotiation .debug) newReporter
      [⟨0, 30, linkUp⟩, ⟨10, 30, linkDown⟩, ⟨20, 30, linkUp⟩, ⟨30, 30, linkDown⟩,
        ⟨70, 30, linkDown⟩] =
      some (⟨some 30, reportDown linkDown⟩, [some true, none, some true, none, some false]) := rfl
  have hpos : ∀ s t neg, NoStale s ⟨t, 30, neg⟩ := fun s t neg _ =>
    .inl (show (0 : Int) < 30 by decide)
  have hmeets : RunMeets (updateResultsFromAutoNegotiation .debug) NoStale newReporter
      [⟨0, 30, linkUp⟩, ⟨10, 30, linkDown⟩, ⟨20, 30, linkUp⟩, ⟨30, 30, linkDown⟩,
        ⟨70, 30, linkDown⟩] :=
    ⟨hpos _ _ _, fun _ _ _ => ⟨hpos _ _ _, fun _ _ _ => ⟨hpos _ _ _, fun _ _ _ =>
      ⟨hpos _ _ _, fun _ _ _ => ⟨hpos _ _ _, fun _ _ _ => trivial⟩⟩⟩⟩⟩
  exact ⟨_, hrun, debounced rfl hmeets hrun⟩

/-- The link goes down, comes up while the debounce time is 0, and goes down for the second
time after the debounce time is set again: the second time is reported at once. -/
theorem not_alwaysDebounced :
    ¬ ∀ (start reporter : Reporter) (calls : List UpdateCall) (reports : List (Option Bool)),
      start.firstLinkDownTime = none →
      calls.Pairwise (fun a b => a.currentTime ≤ b.currentTime) →
      run (updateResultsFromAutoNegotiation .debug) start calls = some (reporter, reports) →
      Debounced calls reports := by
  intro h
  have hrun : run (updateResultsFromAutoNegotiation .debug) newReporter
      [⟨0, 30, linkDown⟩, ⟨10, 0, linkUp⟩, ⟨50, 30, linkDown⟩] =
      some (⟨some 0, reportDown linkDown⟩, [none, some true, some false]) := rfl
  have hlaw := h newReporter _ _ _ rfl (by simp) hrun
  have hlast := hlaw [⟨0, 30, linkDown⟩, ⟨10, 0, linkUp⟩] ⟨50, 30, linkDown⟩ [] rfl (some false) rfl
  obtain ⟨-, time, ⟨pre, c, post, heq, -, hall⟩, -⟩ := hlast (by decide) rfl
  have hmem : (⟨10, 0, linkUp⟩ : UpdateCall) ∈ c :: post := by
    have hend := congrArg List.getLast? heq
    rw [List.getLast?_append_cons] at hend
    exact List.mem_of_getLast? hend.symm
  have hno := hall _ hmem
  exact absurd hno (by decide)

end Run

end MyTestFiles.Proofs.InlinePower
