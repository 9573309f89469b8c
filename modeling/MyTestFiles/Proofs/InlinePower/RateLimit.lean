import MyTestFiles.InlinePower.Switch

/-!
# `MyTestFiles.Proofs.InlinePower.RateLimit`: how fast ports are powered

The limiter of `newInlinePower` keeps a count and the time of the last grant. The bound is
about bursts: consecutive grants, each at most `MinTimeBetweenTwoPowerOnCycles` after the
one before. `Limited` relates the two attributes to the history. The count bounds the bursts
that reach up to now, since a later grant extends one of these or starts a new one.

The constants of the limiter are parameters (`Limits`), and a history may have any times, so the
clock may stand still or go back. A burst is broken by a pause and by nothing else, and the bound
is on each burst by itself.

* `limited_step` is one call. It keeps `Limited`, whatever is asked for and whether it is granted.
* `rate_limited` is the induction over the history. The bound holds of every burst in it and not
  only of the last one, because a burst that is over never grows again.
* `switchNew_answer` leaves out how the switch decides. It says that a grant is counted by the
  limiter and that a refusal changes nothing.
-/

set_option autoImplicit false

namespace MyTestFiles.Proofs.InlinePower

open MyTestFiles.Lib
open MyTestFiles.InlinePower

/-! ### Bursts -/

section Bursts
variable {minTime t : Int} {times burst : List Int} {count : Nat}

/-- Each time is at most `minTime` after the one before. -/
def Burst (minTime : Int) (times : List Int) : Prop := times.IsChain fun a b => b - a ≤ minTime

/-- The consecutive times that reach up to the last one and are a burst are at most `count`. -/
def EndsWithin (minTime : Int) (count : Nat) (times : List Int) : Prop :=
  ∀ burst, burst <:+ times → Burst minTime burst → burst.length ≤ count

/-- The consecutive times that are a burst are at most `count`. -/
def BurstsWithin (minTime : Int) (count : Nat) (times : List Int) : Prop :=
  ∀ burst, burst <:+: times → Burst minTime burst → burst.length ≤ count

/-- A time in a burst with the last one. -/
theorem EndsWithin.extend (h : EndsWithin minTime count times) :
    EndsWithin minTime (count + 1) (times ++ [t]) := by
  intro burst hsuffix hburst
  rcases List.suffix_concat_iff.mp hsuffix with rfl | ⟨earlier, rfl, hearlier⟩
  · exact Nat.zero_le _
  · have hlen := h earlier hearlier (List.isChain_append.mp hburst).1
    rw [List.length_append]
    exact Nat.add_le_add_right hlen 1

/-- A time too late for a burst with the last one. -/
theorem endsWithin_of_late (hlate : ∀ last ∈ times.getLast?, minTime < t - last) :
    EndsWithin minTime 1 (times ++ [t]) := by
  intro burst hsuffix hburst
  rcases List.suffix_concat_iff.mp hsuffix with rfl | ⟨earlier, rfl, before, rfl⟩
  · exact Nat.zero_le _
  · rcases List.eq_nil_or_concat earlier with rfl | ⟨earlier, last, rfl⟩
    · exact Nat.le_refl 1
    · -- the burst would step from `last` to `t`
      have hstep := (List.isChain_append.mp hburst).2.2 last (by simp) t (by simp)
      have hgap := hlate last (by simp)
      omega

/-- A larger bound bounds the burst that reaches up to now as well. -/
theorem EndsWithin.mono {count' : Nat} (h : EndsWithin minTime count times)
    (hle : count ≤ count') : EndsWithin minTime count' times :=
  fun burst hsuffix hburst => (h burst hsuffix hburst).trans hle

/-- A new grant only matters for the bursts that reach up to it. -/
theorem BurstsWithin.concat (h : BurstsWithin minTime count times)
    (hends : EndsWithin minTime count (times ++ [t])) :
    BurstsWithin minTime count (times ++ [t]) := by
  intro burst hinfix hburst
  rcases List.infix_concat_iff.mp hinfix with hsuffix | hinfix
  · exact hends burst hsuffix hburst
  · exact h burst hinfix hburst

end Bursts

/-! ### One call -/

/-- A call of the switch with its answer. -/
abbrev SwitchEvent := (Call × SwitchOp) × MilliWatts

/-- The times of the grants. -/
def grantTimes (past : List SwitchEvent) : List Int :=
  past.filterMap fun event => if event.2 ≠ 0 then some event.1.1.microTime else none

/-- The constants of the limiter. -/
structure Limits where
  never : Int
  maxNum : Nat
  minTime : Int

/-- A call with these constants and a master chassis, at a time that is not earlier than the
ones before, so that no difference of times wraps. A request asks for some power. -/
structure Clocked (limits : Limits) (past : List SwitchEvent) (op : Call × SwitchOp) : Prop where
  never : op.1.microsecondsNever = limits.never
  maxNum : op.1.maxNumPowerAppliedInOneCycle = limits.maxNum
  minTime : op.1.minTimeBetweenTwoPowerOnCycles = limits.minTime
  master : op.1.master = true
  clock : op.1.microTime ≠ limits.never
  later : ∀ event ∈ past, event.1.1.microTime ≤ op.1.microTime
  positive : ∀ power, op.2 = .newInlinePower power → power > 0

section Call
variable {build : Build} {call : Call} {power : MilliWatts} {switch : PimSwitch}

/-- The request is granted. -/
def Grants (call : Call) (switch : PimSwitch) (power : MilliWatts) : Prop :=
  rateAllowed call switch = true ∧
    switch.currentInlinePowerUsage + power < switch.totalInlinePowerAvailable

/-- What `newInlinePower` does: all of the power is granted and the limiter counts it, or
nothing changes. -/
structure Answer (call : Call) (power answer : MilliWatts) (switch switch' : PimSwitch) : Prop where
  usage : switch'.currentInlinePowerUsage = switch.currentInlinePowerUsage + answer
  total : switch'.totalInlinePowerAvailable = switch.totalInlinePowerAvailable
  cases : (Grants call switch power ∧ answer = power ∧
      switch'.numPowerAppliedInCurCycle = (grant call power switch).numPowerAppliedInCurCycle ∧
      switch'.lastPowerOnTime = call.microTime) ∨
    (answer = 0 ∧ switch' = switch)

/-- What a request to the switch answers, and what it books. -/
theorem switchNew_answer (hmaster : call.master = true) :
    Sat (PimSwitch.newInlinePower build call power) switch
      (fun fn => build = .debug ∧ fn = .switchNewInlinePower ∧ ¬ power > 0)
      fun answer switch' => Answer call power answer switch switch' := by
  simp only [PimSwitch.newInlinePower, sat_bind, sat_assert, sat_get, sat_ite, sat_modify,
    sat_pure, setExtraNumPowerPorts]
  refine ⟨fun hfail => ⟨hfail.1, trivial, hfail.2⟩, fun _ => ⟨fun hgrants => ⟨fun _ => ⟨fun _ => ?_,
    fun hnone => absurd hmaster hnone⟩, fun _ => ?_⟩, fun _ => ?_⟩⟩
  · exact ⟨rfl, rfl, Or.inl ⟨hgrants, rfl, rfl, rfl⟩⟩
  · exact ⟨rfl, rfl, Or.inl ⟨hgrants, rfl, rfl, rfl⟩⟩
  · exact ⟨(add_zero _).symm, rfl, Or.inr ⟨rfl, rfl⟩⟩

/-- `deleteInlinePower` leaves the limiter alone. -/
theorem switchDelete_limiter :
    Sat (PimSwitch.deleteInlinePower build call power) switch (fun _ => True) fun _ switch' =>
      switch'.numPowerAppliedInCurCycle = switch.numPowerAppliedInCurCycle ∧
      switch'.lastPowerOnTime = switch.lastPowerOnTime := by
  simp [PimSwitch.deleteInlinePower, sat_ite, setExtraNumPowerPorts]

end Call

/-! ### Runs -/

/-- What the limiter knows of the history. -/
structure Limited (limits : Limits) (past : List SwitchEvent) (switch : PimSwitch) : Prop where
  unused : switch.lastPowerOnTime = limits.never →
    switch.numPowerAppliedInCurCycle = 0 ∧ grantTimes past = []
  count : switch.numPowerAppliedInCurCycle ≤ limits.maxNum
  recent : ∀ last ∈ (grantTimes past).getLast?, last ≤ switch.lastPowerOnTime
  ends : EndsWithin limits.minTime switch.numPowerAppliedInCurCycle (grantTimes past)
  bursts : BurstsWithin limits.minTime limits.maxNum (grantTimes past)

section Runs
variable {build : Build} {limits : Limits} {past : List SwitchEvent} {switch : PimSwitch}

/-- A step grants where its answer is not zero. -/
theorem grantTimes_concat (past : List SwitchEvent) (op : Call × SwitchOp) (answer : MilliWatts) :
    grantTimes (past ++ [(op, answer)]) =
      grantTimes past ++ if answer ≠ 0 then [op.1.microTime] else [] := by
  rw [grantTimes, List.filterMap_append, ← grantTimes]
  by_cases hanswer : answer ≠ 0
  · simp [hanswer]
  · simp [hanswer]

/-- A call that grants nothing and leaves the limiter alone. -/
theorem Limited.same (h : Limited limits past switch) (op : Call × SwitchOp) {switch' : PimSwitch}
    (hcount : switch'.numPowerAppliedInCurCycle = switch.numPowerAppliedInCurCycle)
    (hlast : switch'.lastPowerOnTime = switch.lastPowerOnTime) :
    Limited limits (past ++ [(op, 0)]) switch' := by
  have htimes : grantTimes (past ++ [(op, 0)]) = grantTimes past := by
    rw [grantTimes_concat, if_neg (by simp), List.append_nil]
  refine ⟨?_, ?_, ?_, ?_, ?_⟩
  · rw [hcount, hlast, htimes]
    exact h.unused
  · exact hcount ▸ h.count
  · rw [hlast, htimes]
    exact h.recent
  · rw [hcount, htimes]
    exact h.ends
  · rw [htimes]
    exact h.bursts

/-- A grant. -/
theorem Limited.grant (h : Limited limits past switch) (hmax : 1 ≤ limits.maxNum)
    {op : Call × SwitchOp} (hop : Clocked limits past op) {answer : MilliWatts}
    (hanswer : answer ≠ 0)
    (hrate : rateAllowed op.1 switch = true) {switch' : PimSwitch}
    (hcount : switch'.numPowerAppliedInCurCycle =
      if op.1.microTime - switch.lastPowerOnTime > limits.minTime then 1
      else switch.numPowerAppliedInCurCycle + 1)
    (hlast : switch'.lastPowerOnTime = op.1.microTime) :
    Limited limits (past ++ [(op, answer)]) switch' := by
  have htimes : grantTimes (past ++ [(op, answer)]) = grantTimes past ++ [op.1.microTime] := by
    rw [grantTimes_concat, if_pos hanswer]
  -- A late grant opens a cycle of its own, and any other extends the last one.
  have hends : EndsWithin limits.minTime switch'.numPowerAppliedInCurCycle
      (grantTimes past ++ [op.1.microTime]) := by
    rw [hcount]
    split
    · rename_i hlate
      refine endsWithin_of_late fun last hmem => ?_
      have hrecent := h.recent last hmem
      omega
    · exact h.ends.extend
  have hmost : switch'.numPowerAppliedInCurCycle ≤ limits.maxNum := by
    rw [hcount]
    split
    · exact hmax
    · -- within the cycle: the count is below the maximum, or nothing was powered before
      rename_i hwithin
      simp only [rateAllowed, hop.maxNum, hop.minTime, hop.never, Bool.or_eq_true,
        decide_eq_true_eq, beq_iff_eq] at hrate
      rcases hrate with (hless | hlate) | hfirst
      · exact hless
      · exact absurd hlate hwithin
      · rw [(h.unused hfirst).1]
        exact hmax
  refine ⟨?_, hmost, ?_, ?_, ?_⟩
  · intro hnever
    exact absurd (hlast.symm.trans hnever) hop.clock
  · rw [htimes, hlast]
    simp
  · rw [htimes]
    exact hends
  · rw [htimes]
    exact h.bursts.concat (hends.mono hmost)

/-- One call. -/
theorem limited_step (hmax : 1 ≤ limits.maxNum) (past : List SwitchEvent) (op : Call × SwitchOp)
    (switch : PimSwitch) (h : Limited limits past switch) (hop : Clocked limits past op) :
    Sat (switchStep build op) switch (fun _ => True) fun answer switch' =>
      Limited limits (past ++ [(op, answer)]) switch' := by
  obtain ⟨call, op⟩ := op
  cases op with
  | newInlinePower power =>
      refine (switchNew_answer hop.master).mono (fun _ _ => trivial) ?_
      intro answer switch' hanswer
      -- The switch grants, or it answers 0 and has not changed.
      rcases hanswer.cases with ⟨hgrants, rfl, hcount, hlast⟩ | ⟨rfl, rfl⟩
      · have hpositive := hop.positive answer rfl
        have hminTime : call.minTimeBetweenTwoPowerOnCycles = limits.minTime := hop.minTime
        refine h.grant hmax hop (ne_of_gt hpositive) hgrants.1 ?_ hlast
        rw [hcount, ← hminTime]
        rfl
      · exact h.same _ rfl rfl
  | deleteInlinePower power =>
      show Sat (PimSwitch.deleteInlinePower build call power >>= fun _ => pure 0) _ _ _
      rw [sat_bind]
      refine switchDelete_limiter.mono (fun _ h => h) ?_
      rintro _ switch' ⟨hcount, hlast⟩
      exact h.same _ hcount hlast

/-- The power-on rate limit. In every run from a switch with an applied count of 0, each
burst of consecutive grants has at most `MaxNumPowerAppliedInOneCycle` of them. In every state
reached, a request is granted in full or not at all, and a grant does not lift the usage above
the total. -/
theorem rate_limited {switch₀ : PimSwitch} (hmax : 1 ≤ limits.maxNum)
    (hcount : switch₀.numPowerAppliedInCurCycle = 0)
    (hrun : History (switchStep build) (Clocked limits) switch₀ past switch) :
    BurstsWithin limits.minTime limits.maxNum (grantTimes past) ∧
    ∀ call power, Clocked limits past (call, .newInlinePower power) →
      Sat (switchStep build (call, .newInlinePower power)) switch (fun _ => False)
        fun answer switch' => (answer = power ∨ answer = 0) ∧
          switch'.currentInlinePowerUsage = switch.currentInlinePowerUsage + answer ∧
          switch'.totalInlinePowerAvailable = switch.totalInlinePowerAvailable ∧
          (answer ≠ 0 →
            switch'.currentInlinePowerUsage ≤ switch'.totalInlinePowerAvailable) := by
  -- an empty history has no bursts
  have hstart : Limited limits [] switch₀ := by
    have hnone : ∀ burst : List Int, burst <:+: [] → burst.length ≤ 0 := by
      intro burst hinfix
      rw [List.infix_nil.mp hinfix]
      exact Nat.le_refl 0
    refine ⟨fun _ => ⟨hcount, rfl⟩, hcount ▸ Nat.zero_le _, by simp [grantTimes], ?_, ?_⟩
    · exact fun burst hsuffix _ => (hnone burst hsuffix.isInfix).trans (Nat.zero_le _)
    · exact fun burst hinfix _ => (hnone burst hinfix).trans (Nat.zero_le _)
  have hlimited := hrun.invariant (Limited limits) hstart (limited_step hmax)
  refine ⟨hlimited.bursts, ?_⟩
  -- in the state reached, one more request
  intro call power hop
  refine (switchNew_answer hop.master).mono ?_ ?_
  · intro fn hfail
    exact absurd (hop.positive power rfl) hfail.2.2
  · intro answer switch' hanswer
    refine ⟨?_, hanswer.usage, hanswer.total, ?_⟩
    · rcases hanswer.cases with ⟨-, hall, -⟩ | ⟨hnone, -⟩
      · exact Or.inl hall
      · exact Or.inr hnone
    · intro hne
      rcases hanswer.cases with ⟨hgrants, hall, -⟩ | ⟨hnone, -⟩
      · rw [hanswer.usage, hanswer.total, hall]
        exact le_of_lt hgrants.2
      · exact absurd hnone hne

end Runs

/-- A switch with 50 W that has powered nothing, and two grants at most in a burst. -/
def idleSwitch : PimSwitch := ⟨50000, 0, 0, 100000, 0, -1, [0]⟩
/-- The constants of the example. -/
def twoPerSecond : Limits := ⟨-1, 2, 1000000⟩

/-- A call at a time, with these constants. -/
def callAt (microTime : Int) : Call where
  microTime := microTime
  master := true
  moduleReturn := id
  notifyOk := true
  uninitialized := 0
  microsecondsNever := -1
  maxNumPowerAppliedInOneCycle := 2
  minTimeBetweenTwoPowerOnCycles := 1000000

/-- Two grants within a second, and a third request is refused. -/
theorem rate_limited_twoPerSecond : ∃ past switch,
    History (switchStep .debug) (Clocked twoPerSecond) idleSwitch past switch ∧
      grantTimes past = [10, 20] ∧ past.length = 3 ∧
      BurstsWithin 1000000 2 (grantTimes past) := by
  have clocked : ∀ (t : Int) (past : List SwitchEvent), t ≠ -1 →
      (∀ event ∈ past, event.1.1.microTime ≤ t) →
      Clocked twoPerSecond past (callAt t, .newInlinePower 6000) := by
    intro t past hclock hlater
    exact ⟨rfl, rfl, rfl, rfl, hclock, hlater, fun _ hpower => by cases hpower; decide⟩
  have hrun : History (switchStep .debug) (Clocked twoPerSecond) idleSwitch _ _ :=
    .next (callAt 30, .newInlinePower 6000)
      (.next (callAt 20, .newInlinePower 6000)
        (.next (callAt 10, .newInlinePower 6000) .start (clocked 10 [] (by decide) (by simp)) rfl)
        (clocked 20 _ (by decide) (by simp [callAt])) rfl)
      (clocked 30 _ (by decide) (by simp [callAt])) rfl
  exact ⟨_, _, hrun, rfl, rfl, (rate_limited (by decide) rfl hrun).1⟩

end MyTestFiles.Proofs.InlinePower
