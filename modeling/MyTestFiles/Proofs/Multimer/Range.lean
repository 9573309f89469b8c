import MyTestFiles.Proofs.Multimer.Runs

/-!
# `MyTestFiles.Proofs.Multimer.Range`: no sum of times overflows

`timeradd` adds in a `long`, which wraps. What the clients of the package are promised speaks
of sums of times that do not wrap, `Timeval.plus`. The two are the same where the seconds are
small (`Op.InRange`), and this module proves it for the times that a run can reach.

* `Table.InRange` is the invariant. The intervals are not negative and below `2 ^ 62`. The times
  are what `timer_set` was given, or the sum of two small times, so they fit a `long`.
* A periodic timer is set again only when its time has come. Its time is then no later than the
  reading of the clock, so the sum with its interval fits as well, however often that happens.
* `step_inRange` is the step lemma and `bounded_from` the run lemma.

`timeradd_of_due` is the sum that matters most: a periodic timer whose time has come, with its
interval. The bound on it comes from the reading of the clock and not from the history of the
timer, so it does not grow from call to call.

The seconds of two times below `2 ^ 62` seconds add up to no more than the largest `long`, with
the carry of the microseconds.
-/

set_option autoImplicit false

namespace MyTestFiles.Proofs.Multimer

open MyTestFiles.Lib MyTestFiles.Multimer

/-! ### Sums of times -/

/-- The sum of two times, which does not wrap. -/
def Timeval.plus (a b : Timeval) : Timeval :=
  if a.tvUsec + b.tvUsec ≥ 1000000 then
    { tvSec := a.tvSec + b.tvSec + 1, tvUsec := a.tvUsec + b.tvUsec - 1000000 }
  else { tvSec := a.tvSec + b.tvSec, tvUsec := a.tvUsec + b.tvUsec }

/-- `timeradd` does not wrap where the seconds of the sum, and one more, fit a `long`. -/
theorem timeradd_eq_plus {a b : Timeval} (ha : a.Normal) (hb : b.Normal)
    (hlo : -9223372036854775808 ≤ a.tvSec + b.tvSec)
    (hhi : a.tvSec + b.tvSec + 1 < 9223372036854775808) : timeradd a b = Timeval.plus a b := by
  unfold Timeval.Normal at ha hb
  have husec : int64 (a.tvUsec + b.tvUsec) = a.tvUsec + b.tvUsec :=
    int64_of_range (by omega) (by omega)
  have hsec : int64 (a.tvSec + b.tvSec) = a.tvSec + b.tvSec := int64_of_range hlo (by omega)
  have hcarry : int64 (a.tvSec + b.tvSec + 1) = a.tvSec + b.tvSec + 1 :=
    int64_of_range (by omega) hhi
  unfold timeradd Timeval.plus
  rw [husec, hsec, hcarry]

/-- The sum has the seconds of both times, and at most one more. -/
theorem tvSec_plus (a b : Timeval) :
    a.tvSec + b.tvSec ≤ (Timeval.plus a b).tvSec ∧
      (Timeval.plus a b).tvSec ≤ a.tvSec + b.tvSec + 1 := by
  unfold Timeval.plus
  split <;> constructor <;> dsimp only <;> omega

/-- The time from `b` to `a`, added to `b`, is `a` where the difference fits a `long`. -/
theorem plus_timeUntil {a b : Timeval} (ha : a.Normal) (hb : b.Normal)
    (hlo : -9223372036854775808 ≤ a.tvSec - b.tvSec - 1)
    (hhi : a.tvSec - b.tvSec < 9223372036854775808) :
    Timeval.plus b (Timers.timeUntil a b) = a := by
  obtain ⟨asec, ausec⟩ := a
  obtain ⟨bsec, busec⟩ := b
  unfold Timeval.Normal at ha hb
  dsimp only at ha hb hlo hhi
  have husec : int64 (ausec - busec) = ausec - busec := int64_of_range (by omega) (by omega)
  have hsec : int64 (asec - bsec) = asec - bsec := int64_of_range (by omega) hhi
  have hborrow : int64 (asec - bsec - 1) = asec - bsec - 1 := int64_of_range hlo (by omega)
  by_cases hlt : ausec - busec < 0
  · have hge : busec + (ausec - busec + 1000000) ≥ 1000000 := by omega
    simp only [Timers.timeUntil, husec, hborrow, if_pos hlt, Timeval.plus, if_pos hge,
      Timeval.mk.injEq]
    omega
  · have hnot : ¬busec + (ausec - busec) ≥ 1000000 := by omega
    simp only [Timers.timeUntil, husec, hsec, if_neg hlt, Timeval.plus, if_neg hnot,
      Timeval.mk.injEq]
    omega

/-- An earlier time has no more seconds than a later one. -/
theorem tvSec_le_of_le {a b : Timeval} (h : a ≤ b) : a.tvSec ≤ b.tvSec := by
  have hlex : toLex (a.tvSec, a.tvUsec) ≤ toLex (b.tvSec, b.tvUsec) := h
  rw [Prod.Lex.toLex_le_toLex] at hlex
  dsimp only at hlex
  omega

/-! ### The times of a table -/

/-- The seconds of the pending timers fit a `long`, and those of all intervals are small. -/
structure Table.InRange (T : Table) : Prop where
  time : ∀ p ∈ T.queue, -4611686018427387904 ≤ (T.timer p).time.tvSec ∧
    (T.timer p).time.tvSec < 9223372036854775808
  interval : ∀ p, p ∈ T.queue ∨ p ∈ T.free → (T.timer p).interval.InRange

/-- At the start there are no times. -/
theorem start_inRange : Table.InRange Table.start where
  time p hp := by simp [Table.start] at hp
  interval p hp := by simp [Table.start] at hp

section Arm
variable {T : Table} {p q : Ptr} {time : Timeval} {func : NotifyFunc} {client : NotifyClient}

/-- Setting the timer on an element keeps the intervals of all elements. -/
theorem interval_arm (T : Table) (p q : Ptr) (time : Timeval) (func : NotifyFunc)
    (client : NotifyClient) :
    ((T.arm p time func client).timer q).interval = (T.timer q).interval := by
  show (Function.update T.timer p _ q).interval = _
  by_cases hq : q = p
  · subst hq
    rw [Function.update_self]
  · rw [Function.update_of_ne hq]

/-- The element on which a timer is set joins the queue. -/
theorem mem_arm : q ∈ (T.arm p time func client).queue ↔ q = p ∨ q ∈ T.queue :=
  List.mem_orderedInsert _

/-- Only the element on which a timer is set gets another time. -/
theorem time_arm (T : Table) (p q : Ptr) (time : Timeval) (func : NotifyFunc)
    (client : NotifyClient) :
    ((T.arm p time func client).timer q).time = if q = p then time else (T.timer q).time := by
  show (Function.update T.timer p _ q).time = _
  by_cases hq : q = p
  · subst hq
    rw [Function.update_self, if_pos rfl]
  · rw [Function.update_of_ne hq, if_neg hq]

/-- A timer set on an element with a small interval, for a time that fits. -/
theorem Table.InRange.arm (h : Table.InRange T)
    (htime : -4611686018427387904 ≤ time.tvSec ∧ time.tvSec < 9223372036854775808)
    (hp : (T.timer p).interval.InRange) : Table.InRange (T.arm p time func client) where
  time q hq := by
    rw [time_arm]
    split
    · exact htime
    · rename_i hne
      exact h.time q ((mem_arm.mp hq).resolve_left hne)
  interval q hq := by
    rw [interval_arm]
    rcases hq with hq | hq
    · rcases mem_arm.mp hq with rfl | hq
      · exact hp
      · exact h.interval q (.inl hq)
    · exact h.interval q (.inr hq)

end Arm

/-! ### Each operation -/

variable {t : Timers} {T : Table} {op : Op} {client : NotifyClient}

/-- What is set for a small interval from now, or for a small time, fits a `long`. -/
theorem tvSec_set {i now : Timeval} (relative : Bool) (hi : i.Normal) (hnow : now.Normal)
    (hisec : -4611686018427387904 ≤ i.tvSec ∧ i.tvSec < 4611686018427387904)
    (hsec : now.InRange) :
    -4611686018427387904 ≤ (if relative then timeradd now i else i).tvSec ∧
      (if relative then timeradd now i else i).tvSec < 9223372036854775808 := by
  unfold Timeval.InRange at hsec
  cases relative with
  | false => exact ⟨hisec.1, hisec.2.trans (by norm_num)⟩
  | true =>
      have hplus := tvSec_plus now i
      rw [if_pos rfl, timeradd_eq_plus hnow hi (by omega) (by omega)]
      omega

/-- A table with the same elements and intervals, and no other timer on the queue. -/
theorem Table.InRange.congr (h : Table.InRange T) {T' : Table} (hqueue : T'.queue ⊆ T.queue)
    (hmem : ∀ p, p ∈ T'.queue ∨ p ∈ T'.free → p ∈ T.queue ∨ p ∈ T.free)
    (htimer : T'.timer = T.timer) : Table.InRange T' where
  time p hp := by
    rw [htimer]
    exact h.time p (hqueue hp)
  interval p hp := by
    rw [htimer]
    exact h.interval p (hmem p hp)

/-- `timer_set` sets a small time, and a new element has the interval zero. -/
theorem set_inRange (h : Table.InRange T) (hs : T.Sound) {interval : Option Timeval}
    {func : NotifyFunc} {relative : Bool} {now : Timeval} {fresh : Ptr}
    (hnormal : ∀ i ∈ interval, i.Normal) (hnow : now.Normal)
    (hop : (Op.set interval func client relative now fresh).InRange) :
    Table.InRange (T.set interval func client relative now fresh).1 := by
  have hwithout : T.without client ⊆ T.queue := fun p hp => ((Table.mem_without_iff hs).mp hp).1
  cases interval with
  | none =>
      cases hfind : T.find client with
      | none =>
          simp only [Table.set, hfind]
          exact h
      | some p =>
          simp only [Table.set, hfind]
          refine h.congr hwithout (fun q hq => ?_) rfl
          rcases hq with hq | hq
          · exact .inl (hwithout hq)
          · rcases List.mem_cons.mp hq with rfl | hq
            · exact .inl ((Table.find_eq_some_iff hs).mp hfind).1
            · exact .inr hq
  | some i =>
      have htime := tvSec_set relative (hnormal i rfl) hnow (hop.1 i rfl) hop.2
      cases hfind : T.find client with
      | some p =>
          have hp := ((Table.find_eq_some_iff hs).mp hfind).1
          simp only [Table.set, hfind]
          have hbase : Table.InRange { T with queue := T.without client } :=
            h.congr hwithout (fun q hq => hq.imp_left fun hq => hwithout hq) rfl
          exact hbase.arm htime (h.interval p (.inl hp))
      | none =>
          cases hfree : T.free with
          | cons p free =>
              simp only [Table.set, hfind, hfree]
              have hbase : Table.InRange { T with queue := T.without client, free := free } := by
                refine h.congr hwithout (fun q hq => ?_) rfl
                rw [hfree]
                exact hq.imp (fun hq => hwithout hq) fun hq => List.mem_cons_of_mem _ hq
              exact hbase.arm htime (h.interval p (.inr (by rw [hfree]; simp)))
          | nil =>
              simp only [Table.set, hfind, hfree]
              -- a new element has the time and the interval zero
              have hnew : ∀ q, (Function.update T.timer fresh Timer.new q) = T.timer q ∨
                  (Function.update T.timer fresh Timer.new q) = Timer.new := fun q => by
                by_cases hq : q = fresh
                · exact .inr (by rw [hq, Function.update_self])
                · exact .inl (Function.update_of_ne hq _ _)
              have hbase : Table.InRange { T with
                  queue := T.without client, free := [],
                  timer := Function.update T.timer fresh Timer.new } :=
                { time := fun q hq => by
                    show -4611686018427387904 ≤
                        (Function.update T.timer fresh Timer.new q).time.tvSec ∧
                      (Function.update T.timer fresh Timer.new q).time.tvSec < 9223372036854775808
                    rcases hnew q with heq | heq <;> rw [heq]
                    · exact h.time q (hwithout hq)
                    · exact ⟨by decide, by decide⟩
                  interval := fun q hq => by
                    show (Function.update T.timer fresh Timer.new q).interval.InRange
                    rcases hnew q with heq | heq <;> rw [heq]
                    · exact h.interval q (.inl (hwithout (hq.resolve_right List.not_mem_nil)))
                    · exact ⟨by decide, by decide⟩ }
              refine hbase.arm htime ?_
              show (Function.update T.timer fresh Timer.new fresh).interval.InRange
              rw [Function.update_self]
              exact ⟨by decide, by decide⟩

/-- A store puts a small interval into an element. -/
theorem store_inRange (h : Table.InRange T) {p : Ptr} {i : Timeval} (hi : i.InRange) :
    Table.InRange (T.store p i) := by
  have hsame : ∀ q, q ≠ p → (T.store p i).timer q = T.timer q := fun q hq =>
    Function.update_of_ne hq _ _
  have hself : (T.store p i).timer p = { T.timer p with interval := i } := Function.update_self ..
  refine ⟨fun q hq => ?_, fun q hq => ?_⟩
  · by_cases hqp : q = p
    · subst hqp
      rw [hself]
      exact h.time q hq
    · rw [hsame q hqp]
      exact h.time q hq
  · by_cases hqp : q = p
    · subst hqp
      rw [hself]
      exact hi
    · rw [hsame q hqp]
      exact h.interval q hq

/-- The next time of a periodic timer that is due does not overflow. -/
theorem timeradd_of_due (h : Table.InRange T) (hs : T.Sound) {p : Ptr} (hp : p ∈ T.queue)
    {now : Timeval} (hnow : now.InRange) (hdue : (T.timer p).time ≤ now) :
    timeradd (T.timer p).interval (T.timer p).time =
      Timeval.plus (T.timer p).interval (T.timer p).time := by
  have hle := tvSec_le_of_le hdue
  have htime := h.time p hp
  have hinterval := h.interval p (.inl hp)
  unfold Timeval.InRange at hnow hinterval
  exact timeradd_eq_plus (hs.interval p (.inl hp)) (hs.time p hp) (by omega) (by omega)

/-- A pass of `timer_get` at a small reading of the clock. -/
theorem getPass_inRange (h : Table.InRange T) (hs : T.Sound) {now : Timeval}
    (hnow : now.InRange) : Table.InRange (T.getPass now).1 := by
  cases hqueue : T.queue with
  | nil =>
      simp only [Table.getPass, hqueue]
      exact h
  | cons p queue =>
      have hp : p ∈ T.queue := by rw [hqueue]; simp
      have htail : queue ⊆ T.queue := by rw [hqueue]; simp
      by_cases hlt : now < (T.timer p).time
      · simp only [Table.getPass, hqueue, if_pos hlt]
        exact h
      · by_cases hzero : (T.timer p).interval = ⟨0, 0⟩
        · simp only [Table.getPass, hqueue, if_neg hlt, if_pos hzero]
          refine h.congr htail (fun q hq => ?_) rfl
          rcases hq with hq | hq
          · exact .inl (htail hq)
          · rcases List.mem_cons.mp hq with rfl | hq
            · exact .inl hp
            · exact .inr hq
        · simp only [Table.getPass, hqueue, if_neg hlt, if_neg hzero]
          have hbase : Table.InRange { T with queue := queue } :=
            h.congr htail (fun q hq => hq.imp_left fun hq => htail hq) rfl
          -- the time is no later than now, so the sum is small
          have hle := tvSec_le_of_le (not_lt.mp hlt)
          have htime := h.time p hp
          have hinterval := h.interval p (.inl hp)
          have hplus := tvSec_plus (T.timer p).interval (T.timer p).time
          refine hbase.arm ?_ hinterval
          rw [timeradd_of_due h hs hp hnow (not_lt.mp hlt)]
          unfold Timeval.InRange at hnow hinterval
          omega

/-- Every allowed operation with small seconds keeps the times in range. -/
theorem step_inRange (h : Table.InRange T) (hs : T.Sound) (hop : op.Bounded t) :
    Table.InRange (T.step op).1 := by
  cases op with
  | set interval func client relative now fresh =>
      exact set_inRange h hs hop.1.1 hop.1.2.1 hop.2
  | store p interval => exact store_inRange h hop.2
  | get now => exact getPass_inRange h hs hop.2
  | pending => exact h

/-- A run of allowed operations with small seconds, from a table that is sound and in range. -/
theorem bounded_from {ops : List Op} (h : Represents t T [] ∧ T.Sound ∧ Table.InRange T)
    (hops : RunMeets step Op.Bounded t ops) :
    ∃ t' os, run step t ops = some (t', os) ∧
      Represents t' (ops.foldl (fun T op => (T.step op).1) T) [] ∧
      (ops.foldl (fun T op => (T.step op).1) T).Sound ∧
      Table.InRange (ops.foldl (fun T op => (T.step op).1) T) := by
  induction ops generalizing t T with
  | nil => exact ⟨t, [], rfl, h⟩
  | cons op ops ih =>
      obtain ⟨hrep, hs, hr⟩ := h
      obtain ⟨hop, hrest⟩ := hops
      obtain ⟨t₁, ht₁, hrep₁, hs₁⟩ := step_simulates t T op ⟨hrep, hs⟩ hop.1
      obtain ⟨t', os, hrun, h'⟩ :=
        ih ⟨hrep₁, hs₁, step_inRange hr hs hop⟩ (hrest t₁ _ ht₁)
      exact ⟨t', (T.step op).2 :: os, run_cons_of_step ht₁ hrun, h'⟩

/-- The operations of `someOps` have small seconds. -/
theorem someOps_bounded : RunMeets step Op.Bounded Timers.start someOps := by
  iterate 8 refine runMeets_cons (by decide) rfl ?_
  trivial

end MyTestFiles.Proofs.Multimer
