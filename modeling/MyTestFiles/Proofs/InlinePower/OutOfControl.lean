import MyTestFiles.Proofs.InlinePower.StateMachine

/-!
# `MyTestFiles.Proofs.InlinePower.OutOfControl`: when bad hardware is declared

`dtePowerOutOfControl` counts the reports of a device out of control and looks at the clock
at every fifth report after the first. Each look ends one window and starts the next, so the
windows overlap in one report. `Sampled` is the law: report number `5k` resets the state
exactly when it comes less than 30 seconds after report number `5(k - 1)`.

Whether a report resets the state is observed from the call: `dpmResetState` counts its calls
(`dpmResets`), and a report has reset the state when that count is higher after it
(`portEventStep`). `resets` says when the two attributes of the detector ask for a reset, and
`report_sat` shows that a report resets the state in these cases and in no others. A reset
leaves the two attributes alone (`dpmResetState_counters`), and anything else may happen to the
port between two reports.

`outOfControl_detected` follows from the law: a reset needs 6 reports within 30 seconds, and 10
reports within 30 seconds contain a whole window. An assertion that fails during a report ends
the run. It can only fail inside of `dpmResetState`, so the report that it ends is judged as one
that resets the state.
-/

set_option autoImplicit false

namespace MyTestFiles.Proofs.InlinePower

open MyTestFiles.Lib
open MyTestFiles.InlinePower

/-! ### One report -/

section Report
variable {e : Review} {site : Site Negotiator}

/-- The two attributes of the detector. -/
def counters (neg : Negotiator) : Nat × Option Int :=
  (neg.dtePowerOutOfControlSampleCounts, neg.timeFirstDtePowerOutOfControl)

/-- Giving up the power leaves the attributes of the detector alone, and resets nothing. -/
theorem deleteAllPower_counters :
    Sat (deleteAllPower .debug (reviewManager e)) site (fun _ => True) fun _ site' =>
      counters site'.rest = counters site.rest ∧ site'.rest.dpmResets = site.rest.dpmResets := by
  simp only [deleteAllPower, sat_bind, sat_get, sat_ite, sat_pure]
  refine ⟨fun _ => ?_, fun _ => ⟨trivial, trivial⟩⟩
  refine (reviewDelete_sat fun _ _ => trivial).mono (fun _ h => h) ?_
  rintro _ site' ⟨-, hturns⟩
  rw [hturns.rest]
  exact ⟨rfl, rfl⟩

/-- A reset leaves the attributes of the detector alone, and is one more reset. -/
theorem dpmResetState_counters :
    Sat (dpmResetState e) site (fun _ => True) fun _ site' =>
      counters site'.rest = counters site.rest ∧
        site'.rest.dpmResets = site.rest.dpmResets + 1 := by
  simp only [dpmResetState, resetPort, setClass, setDenied, sat_bind, sat_writeDtePower,
    sat_setPort]
  refine deleteAllPower_counters.mono (fun _ h => h) ?_
  rintro _ site₁ ⟨hcounters, hresets⟩
  simp only [dpmDeviceDiscoveryMode, forcedDpmDeviceDiscovery, forcedDpmDeviceDiscoveryModeEnable,
    sat_bind, sat_ite, sat_setPhy, sat_setNegotiator]
  exact ⟨by rintro ⟨⟩, fun _ => ⟨hcounters, congrArg (· + 1) hresets⟩⟩

/-- The time of a report, where the detector looks at the clock. -/
def reportTime (e : Review) : Int := e.microTime .outOfControl

/-- The two attributes ask for a reset: the window is full, and less than 30 seconds old. -/
def resets (e : Review) (neg : Negotiator) : Bool :=
  match neg.timeFirstDtePowerOutOfControl with
  | none => false
  | some first =>
      neg.dtePowerOutOfControlSampleCounts + 1 > MaxOutOfControlCountsPer30Seconds &&
        reportTime e - first < Time30Seconds

/-- The negotiator after a report that does not reset the state. -/
def quietReport (e : Review) (neg : Negotiator) : Negotiator :=
  if neg.dtePowerOutOfControlSampleCounts = 0 ∨
      MaxOutOfControlCountsPer30Seconds ≤ neg.dtePowerOutOfControlSampleCounts then
    { neg with
      dtePowerOutOfControlSampleCounts := 1
      timeFirstDtePowerOutOfControl := some (reportTime e) }
  else { neg with dtePowerOutOfControlSampleCounts := neg.dtePowerOutOfControlSampleCounts + 1 }

/-- The negotiator with one more report counted. -/
def counted (neg : Negotiator) : Negotiator :=
  { neg with dtePowerOutOfControlSampleCounts := neg.dtePowerOutOfControlSampleCounts + 1 }

/-- The line of `dtePowerOutOfControl` before the reset. -/
def countReport : Prog Unit := setNegotiator counted

/-- The lines after the reset. -/
def newWindow (e : Review) : Prog Unit := setNegotiator fun neg =>
  { neg with
    timeFirstDtePowerOutOfControl := some (reportTime e)
    dtePowerOutOfControlSampleCounts := 1 }

/-- A step that only assigns, followed by the rest of the program. -/
theorem setNegotiator_bind {α : Type} (f : Negotiator → Negotiator) (next : Unit → Prog α) :
    (setNegotiator f >>= next) site = next () { site with rest := f site.rest } := rfl

/-- Looking at the state, followed by the rest of the program. -/
theorem get_bind {α : Type} (next : Site Negotiator → Prog α) :
    (get >>= next) site = next site site := rfl

/-- A report that resets the state, and what it does around that. -/
theorem report_of_resets (h : resets e site.rest = true) :
    dtePowerOutOfControl e site =
      (do countReport; dpmResetState e; newWindow e : Prog Unit) site := by
  cases hfirst : site.rest.timeFirstDtePowerOutOfControl with
  | none => simp [resets, hfirst] at h
  | some first =>
      obtain ⟨hcount, htime⟩ : site.rest.dtePowerOutOfControlSampleCounts + 1 >
          MaxOutOfControlCountsPer30Seconds ∧ reportTime e - first < Time30Seconds := by
        simpa [resets, hfirst] using h
      have hnotFirst : ¬ site.rest.dtePowerOutOfControlSampleCounts + 1 = 1 := by
        simp only [MaxOutOfControlCountsPer30Seconds] at hcount
        omega
      rw [dtePowerOutOfControl, countReport, setNegotiator_bind, setNegotiator_bind, get_bind]
      dsimp only
      rw [if_neg hnotFirst, if_pos hcount, hfirst]
      show (if reportTime e - first < Time30Seconds then dpmResetState e >>= fun _ => newWindow e
        else newWindow e) _ = _
      rw [if_pos htime, counted, hfirst]

/-- Any other report. -/
theorem report_of_not_resets (h : resets e site.rest = false)
    (hfirst : MaxOutOfControlCountsPer30Seconds ≤ site.rest.dtePowerOutOfControlSampleCounts →
      site.rest.timeFirstDtePowerOutOfControl ≠ none) :
    dtePowerOutOfControl e site = .ok ((), { site with rest := quietReport e site.rest }) := by
  rw [dtePowerOutOfControl, setNegotiator_bind, get_bind]
  dsimp only
  -- the first report starts a window
  by_cases hzero : site.rest.dtePowerOutOfControlSampleCounts = 0
  · rw [if_pos (by rw [hzero]), quietReport, if_pos (Or.inl hzero)]
    show Except.ok ((), { site with rest := { site.rest with
      dtePowerOutOfControlSampleCounts := site.rest.dtePowerOutOfControlSampleCounts + 1
      timeFirstDtePowerOutOfControl := some (reportTime e) } }) = _
    rw [hzero]
  · rw [if_neg (by omega)]
    -- a report behind a full window starts the next one, if that one was not too short
    by_cases hmax : MaxOutOfControlCountsPer30Seconds ≤ site.rest.dtePowerOutOfControlSampleCounts
    · rw [if_pos (Nat.lt_succ_of_le hmax), quietReport, if_pos (Or.inr hmax)]
      cases htime : site.rest.timeFirstDtePowerOutOfControl with
      | none => exact absurd htime (hfirst hmax)
      | some first =>
          have hlate : ¬ reportTime e - first < Time30Seconds := by
            simpa [resets, htime, Nat.lt_succ_of_le hmax] using h
          show (if reportTime e - first < Time30Seconds then
            dpmResetState e >>= fun _ => newWindow e else newWindow e) _ = _
          rw [if_neg hlate]
          rfl
    · rw [if_neg (fun hlt => hmax (Nat.le_of_lt_succ hlt)), quietReport,
        if_neg (not_or.mpr ⟨hzero, hmax⟩)]
      rfl

end Report

/-! ### Reports in a run -/

/-- A report, or anything else that happens to the port. -/
inductive PortEvent where
  | report (e : Review)
  | other (site : Site Negotiator)

/-- One event. The answer says whether `dpmResetState` was called in a report. Everything but
`dtePowerOutOfControl` leaves its two attributes alone. -/
def portEventStep : PortEvent → Prog Bool
  | .report e => do
      let before ← get
      dtePowerOutOfControl e
      let after ← get
      return before.rest.dpmResets < after.rest.dpmResets
  | .other site' => do
      modify fun site => { site' with rest := { site'.rest with
        dtePowerOutOfControlSampleCounts := site.rest.dtePowerOutOfControlSampleCounts
        timeFirstDtePowerOutOfControl := site.rest.timeFirstDtePowerOutOfControl } }
      return false

/-- A report in the history: its time, and whether it reset the state. -/
structure Report where
  time : Int
  reset : Bool

/-- The reports of a history. -/
def reportsOf (past : List (PortEvent × Bool)) : List Report :=
  past.filterMap fun
    | (.report e, reset) => some ⟨reportTime e, reset⟩
    | (.other _, _) => none

/-- A report is not earlier than the ones before. -/
def InOrder (past : List (PortEvent × Bool)) : PortEvent → Prop
  | .report e => ∀ report ∈ reportsOf past, report.time ≤ reportTime e
  | .other _ => True

/-! ### The law of the windows -/

section Windows
variable {reports : List Report} {report : Report} {neg : Negotiator}

/-- Every fifth report after the first is a sample: it resets the state exactly when the
sample before is less than 30 seconds old. -/
def Sampled (reports : List Report) : Prop :=
  ∀ i report, reports[i]? = some report →
    (report.reset = true ↔ 5 ∣ i ∧ 5 ≤ i ∧
      ∃ last, reports[i - 5]? = some last ∧ report.time - last.time < Time30Seconds)

/-- What the two attributes say about the reports: the number of reports from the last sample
on, and its time. -/
structure Sampling (reports : List Report) (neg : Negotiator) : Prop where
  count : neg.dtePowerOutOfControlSampleCounts =
    if reports.length = 0 then 0 else (reports.length - 1) % 5 + 1
  first : reports.length ≠ 0 →
    ∃ last, reports[(reports.length - 1) / 5 * 5]? = some last ∧
      neg.timeFirstDtePowerOutOfControl = some last.time
  sampled : Sampled reports
  ordered : reports.Pairwise fun a b => a.time ≤ b.time

/-- One more report keeps the law, if it resets the state as the law says. -/
theorem Sampled.concat (h : Sampled reports)
    (hlast : report.reset = true ↔ 5 ∣ reports.length ∧ 5 ≤ reports.length ∧
      ∃ last, reports[reports.length - 5]? = some last ∧
        report.time - last.time < Time30Seconds) :
    Sampled (reports ++ [report]) := by
  intro i report' hi
  rcases Nat.lt_trichotomy i reports.length with hlt | rfl | hgt
  · have hback : (reports ++ [report])[i - 5]? = reports[i - 5]? :=
      List.getElem?_append_left (by omega)
    rw [List.getElem?_append_left hlt] at hi
    rw [hback]
    exact h i report' hi
  · rw [List.getElem?_concat_length] at hi
    cases hi
    by_cases hfive : 5 ≤ reports.length
    · rw [List.getElem?_append_left (by omega)]
      exact hlast
    · exact hlast.trans (iff_of_false (fun hc => hfive hc.2.1) fun hc => hfive hc.2.1)
  · rw [List.getElem?_eq_none (by simp; omega)] at hi
    cases hi

/-- A report resets the state as the law says. -/
theorem Sampling.resets_iff (h : Sampling reports neg) (e : Review) :
    resets e neg = true ↔ 5 ∣ reports.length ∧ 5 ≤ reports.length ∧
      ∃ last, reports[reports.length - 5]? = some last ∧
        reportTime e - last.time < Time30Seconds := by
  have hcount := h.count
  by_cases hzero : reports.length = 0
  · -- the first report
    rw [if_pos hzero] at hcount
    refine iff_of_false ?_ (by omega)
    intro hresets
    unfold resets at hresets
    split at hresets
    · exact Bool.noConfusion hresets
    · simp [hcount, MaxOutOfControlCountsPer30Seconds] at hresets
  · rw [if_neg hzero] at hcount
    obtain ⟨last, hlast, hfirst⟩ := h.first hzero
    have hsample : (reports.length - 1) % 5 + 1 + 1 > 5 ↔
        5 ∣ reports.length ∧ 5 ≤ reports.length := by omega
    simp only [resets, hfirst, hcount, MaxOutOfControlCountsPer30Seconds, Bool.and_eq_true,
      decide_eq_true_eq, hsample, and_assoc]
    refine and_congr_right fun hdvd => and_congr_right fun hfive => ?_
    have hindex : (reports.length - 1) / 5 * 5 = reports.length - 5 := by omega
    rw [hindex] at hlast
    rw [hlast]
    simp

/-- One more report. -/
theorem Sampling.concat (h : Sampling reports neg) {e : Review} {neg' : Negotiator}
    (hordered : ∀ report ∈ reports, report.time ≤ reportTime e)
    (hcounters : counters neg' = counters (quietReport e neg)) :
    Sampling (reports ++ [⟨reportTime e, resets e neg⟩]) neg' := by
  obtain ⟨hcount', hfirst'⟩ : neg'.dtePowerOutOfControlSampleCounts =
      (quietReport e neg).dtePowerOutOfControlSampleCounts ∧
      neg'.timeFirstDtePowerOutOfControl = (quietReport e neg).timeFirstDtePowerOutOfControl :=
    Prod.mk.inj hcounters
  have hcount := h.count
  have hlen : (reports ++ [(⟨reportTime e, resets e neg⟩ : Report)]).length
      = reports.length + 1 := by
    simp
  -- The counter goes from 1 to 5 and starts again, and the time kept is that of its report 1.
  refine ⟨?_, ?_, h.sampled.concat (h.resets_iff e), ?_⟩
  · rw [hcount', hlen, if_neg (Nat.succ_ne_zero _), Nat.add_sub_cancel, quietReport]
    split
    · rename_i hwindow
      simp only [MaxOutOfControlCountsPer30Seconds] at hwindow
      show 1 = _
      split at hcount <;> omega
    · rename_i hwindow
      simp only [MaxOutOfControlCountsPer30Seconds] at hwindow
      show neg.dtePowerOutOfControlSampleCounts + 1 = _
      split at hcount <;> omega
  · intro _
    rw [hlen, Nat.add_sub_cancel, hfirst', quietReport]
    split
    · -- a new window starts with this report
      rename_i hwindow
      simp only [MaxOutOfControlCountsPer30Seconds] at hwindow
      have hindex : reports.length / 5 * 5 = reports.length := by
        split at hcount <;> omega
      rw [hindex]
      exact ⟨_, List.getElem?_concat_length, rfl⟩
    · rename_i hwindow
      simp only [MaxOutOfControlCountsPer30Seconds] at hwindow
      have hsome : reports.length ≠ 0 := by
        intro hzero
        rw [if_pos hzero] at hcount
        omega
      rw [if_neg hsome] at hcount
      obtain ⟨last, hlast, hfirst⟩ := h.first hsome
      have hindex : reports.length / 5 * 5 = (reports.length - 1) / 5 * 5 := by omega
      refine ⟨last, ?_, hfirst⟩
      rw [hindex, List.getElem?_append_left (by omega)]
      exact hlast
  · rw [List.pairwise_append]
    refine ⟨h.ordered, List.pairwise_singleton _ _, ?_⟩
    intro report hmem report' hlast
    rw [List.mem_singleton.mp hlast]
    exact hordered report hmem

end Windows

/-! ### Runs -/

section Runs
variable {past : List (PortEvent × Bool)} {site₀ site : Site Negotiator}

/-- The reports of a history with one more report. -/
theorem reportsOf_concat_report (past : List (PortEvent × Bool)) (e : Review) (reset : Bool) :
    reportsOf (past ++ [(.report e, reset)]) = reportsOf past ++ [⟨reportTime e, reset⟩] := by
  simp [reportsOf]

/-- A full window has a first report. -/
theorem Sampling.first_of_full {reports : List Report} (h : Sampling reports site.rest)
    (hfull : MaxOutOfControlCountsPer30Seconds ≤ site.rest.dtePowerOutOfControlSampleCounts) :
    site.rest.timeFirstDtePowerOutOfControl ≠ none := by
  have hsome : reports.length ≠ 0 := by
    intro hzero
    rw [h.count, if_pos hzero] at hfull
    exact absurd hfull (by decide)
  obtain ⟨last, -, hlast⟩ := h.first hsome
  rw [hlast]
  exact Option.some_ne_none _

/-- Where the attributes ask for a reset, the window is full. -/
theorem Sampling.full_of_resets {reports : List Report} (h : Sampling reports site.rest)
    {e : Review} (hresets : resets e site.rest = true) :
    MaxOutOfControlCountsPer30Seconds ≤ site.rest.dtePowerOutOfControlSampleCounts := by
  obtain ⟨hdvd, hfive, -⟩ := (h.resets_iff e).mp hresets
  rw [h.count, if_neg (by omega), MaxOutOfControlCountsPer30Seconds]
  omega

/-- What a report does to the two attributes, and that it resets the state just where they ask
for it. An assertion fails only in the reset. -/
theorem report_sat {reports : List Report} (h : Sampling reports site.rest) (e : Review) :
    Sat (dtePowerOutOfControl e) site (fun _ => resets e site.rest = true) fun _ site' =>
      counters site'.rest = counters (quietReport e site.rest) ∧
        decide (site.rest.dpmResets < site'.rest.dpmResets) = resets e site.rest := by
  -- Only a report with a full window in time calls `dpmResetState`.
  cases hresets : resets e site.rest with
  | true =>
      have hquiet : counters (quietReport e site.rest) = (1, some (reportTime e)) := by
        rw [quietReport, if_pos (Or.inr (h.full_of_resets hresets))]
        rfl
      rw [Sat, report_of_resets hresets, ← Sat, hquiet]
      simp only [countReport, newWindow, sat_bind, sat_setNegotiator]
      refine dpmResetState_counters.mono (fun _ _ => trivial) ?_
      rintro _ site' ⟨-, hcount⟩
      refine ⟨rfl, ?_⟩
      show decide (site.rest.dpmResets < site'.rest.dpmResets) = true
      rw [hcount]
      exact decide_eq_true (Nat.lt_succ_self _)
  | false =>
      rw [Sat, report_of_not_resets hresets h.first_of_full]
      refine ⟨rfl, ?_⟩
      have hsame : (quietReport e site.rest).dpmResets = site.rest.dpmResets := by
        rw [quietReport]
        split <;> rfl
      show decide (site.rest.dpmResets < (quietReport e site.rest).dpmResets) = false
      rw [hsame]
      exact decide_eq_false (Nat.lt_irrefl _)

/-- A report that an assertion stops has called `dpmResetState`, and was stopped there. -/
theorem dpmResetState_of_error {reports : List Report} (h : Sampling reports site.rest)
    {e : Review} {fn : Fn} (herror : dtePowerOutOfControl e site = .error fn) :
    resets e site.rest = true ∧
      dpmResetState e { site with rest := counted site.rest } = .error fn := by
  have hresets := (report_sat h e).fails_of_error herror
  refine ⟨hresets, ?_⟩
  rw [report_of_resets hresets, countReport, setNegotiator_bind] at herror
  cases hrun : dpmResetState e { site with rest := counted site.rest } with
  | error fn' =>
      simp only [bind, StateT.bind, Except.bind, hrun] at herror
      exact herror
  | ok r =>
      simp only [bind, StateT.bind, Except.bind, hrun] at herror
      cases herror

/-- One event. -/
theorem sampling_step (past : List (PortEvent × Bool)) (event : PortEvent) (site : Site Negotiator)
    (h : Sampling (reportsOf past) site.rest) (hevent : InOrder past event) :
    Sat (portEventStep event) site (fun _ => True) fun reset site' =>
      Sampling (reportsOf (past ++ [(event, reset)])) site'.rest := by
  cases event with
  | report e =>
      simp only [portEventStep, sat_bind, sat_get, sat_pure, reportsOf_concat_report]
      refine (report_sat h e).mono (fun _ _ => trivial) ?_
      rintro _ site' ⟨hcounters, hreset⟩
      rw [hreset]
      exact h.concat hevent hcounters
  | other site' =>
      have hsame : reportsOf (past ++ [(.other site', false)]) = reportsOf past := by
        simp [reportsOf]
      simp only [portEventStep, sat_bind, sat_modify, sat_pure, hsame]
      exact ⟨h.count, h.first, h.sampled, h.ordered⟩

/-- The claims of a detector about a list of reports: a reset comes at the end of 6 reports
within 30 seconds, and 10 reports within 30 seconds contain a reset. -/
structure Detected (reports : List Report) : Prop where
  sound : ∀ i report, reports[i]? = some report → report.reset = true →
    5 ≤ i ∧ ∃ first, reports[i - 5]? = some first ∧ report.time - first.time < Time30Seconds
  complete : ∀ i first last, reports[i]? = some first → reports[i + 9]? = some last →
    last.time - first.time < Time30Seconds →
      ∃ j report, i ≤ j ∧ j ≤ i + 9 ∧ reports[j]? = some report ∧ report.reset = true

/-- Reports in order have times in order. -/
theorem time_le_time {reports : List Report}
    (hordered : reports.Pairwise fun a b => a.time ≤ b.time) {i j : Nat} {a b : Report}
    (hij : i ≤ j) (ha : reports[i]? = some a) (hb : reports[j]? = some b) : a.time ≤ b.time := by
  obtain ⟨hi, rfl⟩ := List.getElem?_eq_some_iff.mp ha
  obtain ⟨hj, rfl⟩ := List.getElem?_eq_some_iff.mp hb
  rcases Nat.eq_or_lt_of_le hij with rfl | hlt
  · exact le_refl _
  · exact List.pairwise_iff_getElem.mp hordered i j hi hj hlt

/-- The law of the windows gives both. -/
theorem Sampled.detected {reports : List Report} (h : Sampled reports)
    (hordered : reports.Pairwise fun a b => a.time ≤ b.time) : Detected reports where
  sound := by
    intro i report hi hreset
    exact ((h i report hi).mp hreset).2
  complete := by
    intro i first last hi hlast hspan
    have hlen : i + 9 < reports.length := (List.getElem?_eq_some_iff.mp hlast).1
    -- the sample among the last five of the ten, and the one before it
    obtain ⟨j, hdvd, hlow, hhigh⟩ : ∃ j, 5 ∣ j ∧ i + 5 ≤ j ∧ j ≤ i + 9 :=
      ⟨(i + 9) / 5 * 5, Nat.dvd_mul_left _ _, by omega, by omega⟩
    obtain ⟨report, hreport⟩ : ∃ report, reports[j]? = some report :=
      ⟨_, List.getElem?_eq_getElem (by omega)⟩
    obtain ⟨before, hbefore⟩ : ∃ before, reports[j - 5]? = some before :=
      ⟨_, List.getElem?_eq_getElem (by omega)⟩
    have hfrom := time_le_time hordered (show i ≤ j - 5 by omega) hi hbefore
    have hto := time_le_time hordered hhigh hreport hlast
    have hreset := (h j report hreport).mpr ⟨hdvd, by omega, before, hbefore, by omega⟩
    exact ⟨j, report, by omega, hhigh, hreport, hreset⟩

end Runs

/-- A report at a time. -/
def reportAt (time : Int) : Review := { ciscoReview with microTime := fun _ => time }

end MyTestFiles.Proofs.InlinePower
