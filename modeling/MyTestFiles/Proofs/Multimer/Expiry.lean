import MyTestFiles.Proofs.Multimer.Range

/-!
# `MyTestFiles.Proofs.Multimer.Expiry`: which timers `timer_get` serves

With handlers that leave the package alone, `timer_get` makes one call for every time up to
the last reading of the clock at which a timer occurs, in the order of these times
(`timerGet_serves`). A periodic timer occurs at its time and then after each interval, counted
from its time and not from the call, so it never drifts. What handlers that do set or cancel
timers may expect is in `Contract`.

* `Occurs` is when a timer occurs, in exact microseconds (`micros`).
* `Served` compares the table before a call of `timer_get` with the table after it.
* `called_of_due` is one pass, and `serves_from` the loop. A pass that makes a call puts the
  occurrence at the head of the queue before what the rest of the loop serves.
* `work` bounds the calls that are still due, so the loop ends (`returns_of_inRange`).

The statement is about one call of `timer_get` on any table that is sound and in range, so it
covers every call in a run. The clock may be read again and again during the call, and every
reading is at least the one before.
-/

set_option autoImplicit false

namespace MyTestFiles.Proofs.Multimer

open MyTestFiles.Lib MyTestFiles.Multimer

/-! ### Times in microseconds -/

/-- A time as a number of microseconds. -/
def micros (a : Timeval) : Int := a.tvSec * 1000000 + a.tvUsec

/-- The carry moves a million microseconds into a second. -/
theorem micros_plus (a b : Timeval) : micros (Timeval.plus a b) = micros a + micros b := by
  unfold Timeval.plus micros
  split <;> dsimp only <;> omega

/-- Normal times are in the order of their microseconds. -/
theorem lt_iff_micros {a b : Timeval} (ha : a.Normal) (hb : b.Normal) :
    a < b ↔ micros a < micros b := by
  have hlex : a < b ↔ a.tvSec < b.tvSec ∨ a.tvSec = b.tvSec ∧ a.tvUsec < b.tvUsec := by
    show toLex (a.tvSec, a.tvUsec) < toLex (b.tvSec, b.tvUsec) ↔ _
    rw [Prod.Lex.toLex_lt_toLex]
  unfold Timeval.Normal at ha hb
  unfold micros
  rw [hlex]
  omega

/-- The order of normal times is that of their microseconds. -/
theorem le_iff_micros {a b : Timeval} (ha : a.Normal) (hb : b.Normal) :
    a ≤ b ↔ micros a ≤ micros b := by
  rw [← not_lt, lt_iff_micros hb ha, not_lt]

/-- A normal time is determined by its microseconds. -/
theorem micros_injective {a b : Timeval} (ha : a.Normal) (hb : b.Normal)
    (h : micros a = micros b) : a = b := by
  refine le_antisymm ((le_iff_micros ha hb).mpr ?_) ((le_iff_micros hb ha).mpr ?_) <;> omega

/-! ### When a timer occurs -/

/-- The timer `e` occurs at its time and, where it is periodic, after each interval. -/
def Occurs (e : Timer) (u : Timeval) : Prop :=
  u.Normal ∧ ∃ k : Nat, micros u = micros e.time + k * micros e.interval

/-- `timer_get` has served the occurrences `sched`, each with its element, of the timers of
`T`: those up to `now`, in order. What it leaves is `T'`. -/
structure Served (T T' : Table) (now : Timeval) (sched : List (Timeval × Ptr)) : Prop where
  sorted : sched.Pairwise fun a b => a.1 ≤ b.1
  nodup : sched.Nodup
  mem : ∀ u p, (u, p) ∈ sched ↔ p ∈ T.queue ∧ Occurs (T.timer p) u ∧ u ≤ now
  queue : ∀ p, p ∈ T'.queue ↔
    p ∈ T.queue ∧ ((T.timer p).interval ≠ ⟨0, 0⟩ ∨ now < (T.timer p).time)
  same : ∀ p ∈ T'.queue, T'.timer p = { T.timer p with time := (T'.timer p).time }
  next : ∀ p ∈ T'.queue, IsLeast {u | Occurs (T.timer p) u ∧ now < u} (T'.timer p).time

variable {t : Timers} {T T' : Table} {p : Ptr} {now : Timeval} {queue : List Ptr}
  {sched : List (Timeval × Ptr)} {e : Timer} {u : Timeval}

/-- A timer occurs at its time. -/
theorem occurs_time (h : e.time.Normal) : Occurs e e.time := ⟨h, 0, by simp⟩

/-- A small interval is not negative. -/
theorem micros_nonneg (h : e.interval.Normal) (hsec : 0 ≤ e.interval.tvSec) :
    0 ≤ micros e.interval := by
  unfold Timeval.Normal at h
  unfold micros
  omega

/-- The interval of a periodic timer moves its time forward. -/
theorem micros_pos (h : e.interval.Normal) (hsec : 0 ≤ e.interval.tvSec)
    (hperiodic : e.interval ≠ ⟨0, 0⟩) : 0 < micros e.interval := by
  refine lt_of_le_of_ne (micros_nonneg h hsec) fun hzero => hperiodic ?_
  exact micros_injective h (by decide) hzero.symm

/-- A timer does not occur before its time. -/
theorem le_of_occurs (htime : e.time.Normal) (hinterval : e.interval.Normal)
    (hsec : 0 ≤ e.interval.tvSec) (h : Occurs e u) : e.time ≤ u := by
  obtain ⟨hu, k, hk⟩ := h
  have hmul := mul_nonneg (Int.natCast_nonneg k) (micros_nonneg hinterval hsec)
  rw [le_iff_micros htime hu]
  omega

/-- The occurrences of a timer are the first and those of the timer that is set again. -/
theorem occurs_iff (htime : e.time.Normal) :
    Occurs e u ↔ u = e.time ∨ Occurs { e with time := Timeval.plus e.interval e.time } u := by
  constructor
  · rintro ⟨hu, k, hk⟩
    cases k with
    | zero => exact .inl (micros_injective hu htime (by simpa using hk))
    | succ k =>
        refine .inr ⟨hu, k, ?_⟩
        show micros u = micros (Timeval.plus e.interval e.time) + k * micros e.interval
        rw [micros_plus, hk]
        push_cast
        ring
  · rintro (rfl | ⟨hu, k, hk⟩)
    · exact occurs_time htime
    · refine ⟨hu, k + 1, ?_⟩
      have hk' : micros u = micros (Timeval.plus e.interval e.time) + k * micros e.interval := hk
      rw [hk', micros_plus]
      push_cast
      ring

/-- A timer that is not periodic occurs once. -/
theorem occurs_iff_eq (htime : e.time.Normal) (hzero : e.interval = ⟨0, 0⟩) :
    Occurs e u ↔ u = e.time := by
  constructor
  · rintro ⟨hu, k, hk⟩
    refine micros_injective hu htime ?_
    rw [hk, hzero]
    simp [micros]
  · rintro rfl
    exact occurs_time htime

/-- With nothing due there is nothing to serve. -/
theorem served_refl (hs : T.Sound) (hr : Table.InRange T)
    (hlate : ∀ p ∈ T.queue, now < (T.timer p).time) : Served T T now [] where
  sorted := .nil
  nodup := List.nodup_nil
  mem u p := by
    refine iff_of_false (by simp) ?_
    rintro ⟨hp, hoccurs, hle⟩
    have hge := le_of_occurs (hs.time p hp) (hs.interval p (.inl hp))
      (hr.interval p (.inl hp)).1 hoccurs
    exact absurd (hge.trans hle) (not_le.mpr (hlate p hp))
  queue p := ⟨fun hp => ⟨hp, .inr (hlate p hp)⟩, fun h => h.1⟩
  same p hp := rfl
  next p hp := ⟨⟨occurs_time (hs.time p hp), hlate p hp⟩, fun u hu =>
    le_of_occurs (hs.time p hp) (hs.interval p (.inl hp)) (hr.interval p (.inl hp)).1 hu.1⟩

/-- A call for a timer that is not periodic, before what is served later. -/
theorem served_once (hs : T.Sound) (hqueue : T.queue = p :: queue) (hp : p ∉ queue)
    (hzero : (T.timer p).interval = ⟨0, 0⟩) (hdue : (T.timer p).time ≤ now)
    (hr : Table.InRange T)
    (h : Served { T with queue := queue, free := p :: T.free } T' now sched) :
    Served T T' now (((T.timer p).time, p) :: sched) := by
  have hmem : ∀ q, q ∈ T.queue ↔ q = p ∨ q ∈ queue := fun q => by rw [hqueue, List.mem_cons]
  have hfirst : (T.timer p).time.Normal := hs.time p ((hmem p).mpr (.inl rfl))
  have hsorted := hs.sorted
  rw [hqueue, List.pairwise_cons] at hsorted
  refine ⟨?_, ?_, fun u q => ?_, fun q => ?_, h.same, h.next⟩
  · -- what is served later is an occurrence of a timer behind this one in the queue
    refine List.pairwise_cons.mpr ⟨fun s hsched => ?_, h.sorted⟩
    obtain ⟨hq, hoccurs, -⟩ := (h.mem s.1 s.2).mp hsched
    have hq' : s.2 ∈ T.queue := (hmem s.2).mpr (.inr hq)
    exact (hsorted.1 s.2 hq).trans
      (le_of_occurs (hs.time _ hq') (hs.interval _ (.inl hq')) (hr.interval _ (.inl hq')).1 hoccurs)
  · exact List.nodup_cons.mpr ⟨fun hsched => hp ((h.mem _ _).mp hsched).1, h.nodup⟩
  · rw [List.mem_cons, h.mem, hmem, Prod.mk.injEq]
    constructor
    · rintro (⟨rfl, rfl⟩ | ⟨hq, hoccurs, hle⟩)
      · exact ⟨.inl rfl, occurs_time hfirst, hdue⟩
      · exact ⟨.inr hq, hoccurs, hle⟩
    · rintro ⟨rfl | hq, hoccurs, hle⟩
      · exact .inl ⟨(occurs_iff_eq hfirst hzero).mp hoccurs, rfl⟩
      · exact .inr ⟨hq, hoccurs, hle⟩
  · rw [h.queue, hmem]
    constructor
    · rintro ⟨hq, hleft⟩
      exact ⟨.inr hq, hleft⟩
    · rintro ⟨rfl | hq, hleft⟩
      · rcases hleft with hne | hlate
        · exact absurd hzero hne
        · exact absurd hdue (not_le.mpr hlate)
      · exact ⟨hq, hleft⟩

/-- A call for a periodic timer, before what is served later. -/
theorem served_again (hs : T.Sound) (hqueue : T.queue = p :: queue) (hp : p ∉ queue)
    (hperiodic : (T.timer p).interval ≠ ⟨0, 0⟩) (hdue : (T.timer p).time ≤ now)
    (hr : Table.InRange T) {T₁ : Table} (hT₁ : ∀ q, q ∈ T₁.queue ↔ q ∈ T.queue)
    (hself : T₁.timer p =
      { T.timer p with time := Timeval.plus (T.timer p).interval (T.timer p).time })
    (hother : ∀ q, q ≠ p → T₁.timer q = T.timer q) (h : Served T₁ T' now sched) :
    Served T T' now (((T.timer p).time, p) :: sched) := by
  have hpmem : p ∈ T.queue := by rw [hqueue]; simp
  have hfirst : (T.timer p).time.Normal := hs.time p hpmem
  have hinterval : (T.timer p).interval.Normal := hs.interval p (.inl hpmem)
  have hpos := micros_pos hinterval (hr.interval p (.inl hpmem)).1 hperiodic
  have hsorted := hs.sorted
  rw [hqueue, List.pairwise_cons] at hsorted
  -- the timer that is set again occurs later
  have hlater : ∀ u, Occurs (T₁.timer p) u → (T.timer p).time < u := by
    rintro u ⟨hu, k, hk⟩
    rw [hself] at hk
    have hk' : micros u = micros (Timeval.plus (T.timer p).interval (T.timer p).time) +
      k * micros (T.timer p).interval := hk
    have hmul := mul_nonneg (Int.natCast_nonneg k) hpos.le
    rw [lt_iff_micros hfirst hu, hk', micros_plus]
    omega
  have hoccurs : ∀ q u, Occurs (T.timer q) u ↔
      (q = p ∧ u = (T.timer p).time) ∨ Occurs (T₁.timer q) u := by
    intro q u
    by_cases hq : q = p
    · subst hq
      rw [occurs_iff hfirst, hself]
      simp
    · rw [hother q hq]
      simp [hq]
  have hinterval₁ : ∀ q, (T₁.timer q).interval = (T.timer q).interval := fun q => by
    by_cases hq : q = p
    · subst hq
      rw [hself]
    · rw [hother q hq]
  refine ⟨?_, ?_, fun u q => ?_, fun q => ?_, fun q hq => ?_, fun q hq => ?_⟩
  · refine List.pairwise_cons.mpr ⟨fun s hsched => ?_, h.sorted⟩
    obtain ⟨hq, hsoccurs, -⟩ := (h.mem s.1 s.2).mp hsched
    by_cases hsp : s.2 = p
    · rw [hsp] at hsoccurs
      exact (hlater _ hsoccurs).le
    · rw [hother _ hsp] at hsoccurs
      have hq' : s.2 ∈ T.queue := (hT₁ _).mp hq
      have hin : s.2 ∈ queue := by
        rw [hqueue] at hq'
        exact (List.mem_cons.mp hq').resolve_left hsp
      exact (hsorted.1 s.2 hin).trans
        (le_of_occurs (hs.time _ hq') (hs.interval _ (.inl hq'))
          (hr.interval _ (.inl hq')).1 hsoccurs)
  · refine List.nodup_cons.mpr ⟨fun hsched => ?_, h.nodup⟩
    exact lt_irrefl _ (hlater _ ((h.mem _ _).mp hsched).2.1)
  · rw [List.mem_cons, h.mem, hT₁, hoccurs, Prod.mk.injEq]
    constructor
    · rintro (⟨rfl, rfl⟩ | ⟨hq, hqoccurs, hle⟩)
      · exact ⟨hpmem, .inl ⟨rfl, rfl⟩, hdue⟩
      · exact ⟨hq, .inr hqoccurs, hle⟩
    · rintro ⟨hq, ⟨rfl, rfl⟩ | hqoccurs, hle⟩
      · exact .inl ⟨rfl, rfl⟩
      · exact .inr ⟨hq, hqoccurs, hle⟩
  · rw [h.queue, hT₁, hinterval₁]
    refine and_congr_right fun hq => ?_
    by_cases hqp : q = p
    · subst hqp
      exact iff_of_true (.inl hperiodic) (.inl hperiodic)
    · rw [hother q hqp]
  · rw [h.same q hq]
    by_cases hqp : q = p
    · subst hqp
      rw [hself]
    · rw [hother q hqp]
  · have hset : {u | Occurs (T.timer q) u ∧ now < u} = {u | Occurs (T₁.timer q) u ∧ now < u} := by
      ext u
      show (Occurs (T.timer q) u ∧ now < u) ↔ (Occurs (T₁.timer q) u ∧ now < u)
      rw [hoccurs]
      refine ⟨fun hu => ⟨hu.1.resolve_left ?_, hu.2⟩, fun hu => ⟨.inr hu.1, hu.2⟩⟩
      rintro ⟨-, rfl⟩
      exact absurd hdue (not_le.mpr hu.2)
    rw [hset]
    exact h.next q hq

/-! ### One pass -/

/-- Handlers that leave the package alone. -/
def idle : Handlers := fun _ _ _ => []

/-- The call that serves an occurrence. -/
def call (T : Table) (s : Timeval × Ptr) : NotifyFunc × NotifyClient :=
  ((T.timer s.2).func, (T.timer s.2).client)

/-- What `timer_get` returns at the reading `now`: nothing where no timer is pending, and the
time to the next timer otherwise. -/
def Timeout (T : Table) (now : Timeval) : Option Timeval → Prop
  | none => T.queue = []
  | some timeout => timeout.Normal ∧ ∃ p ∈ T.queue,
      (∀ q ∈ T.queue, (T.timer p).time ≤ (T.timer q).time) ∧
        Timeval.plus now timeout = (T.timer p).time

/-- A pass that makes a call: the head is due, and what is served later is served after it. -/
structure Called (T T₁ : Table) (now : Timeval) (p : Ptr) : Prop where
  sound : T₁.Sound
  range : Table.InRange T₁
  call : ∀ s, call T₁ s = call T s
  served : ∀ T' last sched, now ≤ last → Served T₁ T' last sched →
    Served T T' last (((T.timer p).time, p) :: sched)

/-- A pass calls the head of the queue where it is due. A timer that is not periodic is then
free, and a periodic one has gone back into the queue. -/
theorem called_of_due (hs : T.Sound) (hr : Table.InRange T) (hsec : now.InRange)
    (hqueue : T.queue = p :: queue)
    (hdisj : T.queue.Disjoint T.free) (hnodup : T.queue.Nodup) (hdue : ¬now < (T.timer p).time) :
    (T.getPass now).2 = .call (T.timer p).func (T.timer p).client ∧
      Called T (T.getPass now).1 now p := by
  have hsound := Table.getPass_sound now hs hdisj hnodup
  have hrange := getPass_inRange hr hs hsec
  have hp : p ∉ queue := by
    rw [hqueue] at hnodup
    exact (List.nodup_cons.mp hnodup).1
  have hmem : ∀ q, q ∈ T.queue ↔ q = p ∨ q ∈ queue := fun q => by rw [hqueue, List.mem_cons]
  by_cases hzero : (T.timer p).interval = ⟨0, 0⟩
  · -- the element is free after the call
    have hpass : T.getPass now = ({ T with queue := queue, free := p :: T.free },
        .call (T.timer p).func (T.timer p).client) := by
      simp only [Table.getPass, hqueue, if_neg hdue, if_pos hzero]
    rw [hpass] at hsound hrange ⊢
    refine ⟨rfl, hsound, hrange, fun _ => rfl, ?_⟩
    intro T' last sched hle h
    exact served_once hs hqueue hp hzero ((not_lt.mp hdue).trans hle) hr h
  · -- the element goes back into the queue, and only its time has changed
    let time := Timeval.plus (T.timer p).interval (T.timer p).time
    let T₁ := ({ T with queue := queue } : Table).arm p time (T.timer p).func (T.timer p).client
    have hpass : T.getPass now = (T₁, .call (T.timer p).func (T.timer p).client) := by
      have hsum := timeradd_of_due hr hs ((hmem p).mpr (.inl rfl)) hsec (not_lt.mp hdue)
      simp only [Table.getPass, hqueue, if_neg hdue, if_neg hzero, hsum]
      rfl
    rw [hpass] at hsound hrange ⊢
    have hself : T₁.timer p = { T.timer p with time := time } := Function.update_self ..
    have hother : ∀ q, q ≠ p → T₁.timer q = T.timer q := fun q hq => Function.update_of_ne hq _ _
    have hsame : ∀ q, T₁.timer q = { T.timer q with time := (T₁.timer q).time } := fun q => by
      by_cases hq : q = p
      · subst hq
        rw [hself]
      · rw [hother q hq]
    have hT₁ : ∀ q, q ∈ T₁.queue ↔ q ∈ T.queue := fun q => by
      rw [hmem]
      exact List.mem_orderedInsert _
    refine ⟨rfl, hsound, hrange, fun s => ?_, ?_⟩
    · unfold call
      rw [hsame s.2]
    · intro T' last sched hle h
      exact served_again hs hqueue hp hzero ((not_lt.mp hdue).trans hle) hr hT₁ hself hother h

/-! ### The loop of `timer_get` -/

variable {clock : Nat → Timeval} {fuel : Nat} {g g' : Getting} {out : Option Timeval}

/-- What a pass of `timer_get` does next, with idle handlers. -/
def afterPass (g : Getting) (t' : Timers) :
    Timers.GetPass → Pass Getting (Getting × Option Timeval)
  | .empty => .done ({ g with timers := t' }, none)
  | .timeout timeout => .done ({ g with timers := t', reads := g.reads + 1 }, some timeout)
  | .call func client =>
      .again { timers := t', reads := g.reads + 1, calls := g.calls ++ [(func, client)] }

/-- A pass of the loop with idle handlers is the pass of the package. -/
theorem body_of_pass {pass : Timers.GetPass} {t' : Timers}
    (h : g.timers.timerGetPass (clock g.reads) = some (t', pass)) :
    timerGetBody idle clock g = some (afterPass g t' pass) := by
  cases pass <;> simp [timerGetBody, h, idle, afterPass]

/-- What the passes from `g` on serve. The induction is on the passes, and the table of each is
sound and in range. -/
theorem serves_from (h : Represents g.timers T []) (hs : T.Sound) (hr : Table.InRange T)
    (hclock : Monotone clock) (hnormal : ∀ n, (clock n).Normal)
    (hsec : ∀ n, (clock n).InRange)
    (hrun : loop (timerGetBody idle clock) fuel g = some (g', out)) :
    g.reads ≤ g'.reads ∧ ∃ T' sched, Represents g'.timers T' [] ∧
      Served T T' (clock (g'.reads - 1)) sched ∧
      g'.calls = g.calls ++ sched.map (call T) ∧ Timeout T' (clock (g'.reads - 1)) out := by
  induction fuel generalizing g T with
  | zero => simp [loop] at hrun
  | succ fuel ih =>
      obtain ⟨t', hpass, h'⟩ := timerGetPass_spec h hs (hnormal g.reads)
      cases hqueue : T.queue with
      | nil =>
          simp only [Table.getPass, hqueue] at hpass h'
          rw [loop_of_done (body_of_pass hpass)] at hrun
          cases hrun
          have hnone : ∀ p, p ∉ T.queue := fun p hp => by simp [hqueue] at hp
          exact ⟨le_rfl, T, [], h', served_refl hs hr fun p hp => absurd hp (hnone p),
            by simp, hqueue⟩
      | cons p queue =>
          by_cases hlt : clock g.reads < (T.timer p).time
          · -- the head is not due, and so nothing is
            simp only [Table.getPass, hqueue, if_pos hlt] at hpass h'
            rw [loop_of_done (body_of_pass hpass)] at hrun
            cases hrun
            have hp : p ∈ T.queue := by rw [hqueue]; simp
            have hhead : ∀ q ∈ T.queue, (T.timer p).time ≤ (T.timer q).time := fun q hq => by
              have hsorted := hs.sorted
              rw [hqueue, List.pairwise_cons] at hsorted
              rw [hqueue] at hq
              rcases List.mem_cons.mp hq with rfl | hq
              · exact le_rfl
              · exact hsorted.1 q hq
            refine ⟨Nat.le_succ _, T, [], h', served_refl hs hr fun q hq =>
              lt_of_lt_of_le hlt (hhead q hq), by simp, ?_⟩
            have htime := hr.time p hp
            have hnow := hsec g.reads
            unfold Timeval.InRange at hnow
            exact ⟨timeUntil_normal (hs.time p hp) (hnormal _), p, hp, hhead,
              plus_timeUntil (b := clock g.reads) (hs.time p hp) (hnormal g.reads) (by omega)
                (by omega)⟩
          -- The head is called, and the later passes serve what is left (`ih`).
          · obtain ⟨hcall, hcalled⟩ :=
              called_of_due hs hr (hsec g.reads) hqueue h.disjoint h.queue.nodup hlt
            rw [hcall] at hpass
            rw [loop_of_again (body_of_pass hpass)] at hrun
            obtain ⟨hreads, T', sched, hrep, hserved, hcalls, hout⟩ :=
              ih (g := ⟨t', g.reads + 1, _⟩) h' hcalled.sound hcalled.range hrun
            have hle : clock g.reads ≤ clock (g'.reads - 1) := hclock (by
              have hreads' : g.reads + 1 ≤ g'.reads := hreads
              omega)
            refine ⟨(Nat.le_succ _).trans hreads, T', _, hrep, hcalled.served _ _ _ hle hserved, ?_,
              hout⟩
            rw [hcalls, List.map_cons, List.append_assoc, List.map_congr_left fun s _ =>
              hcalled.call s]
            rfl

/-! ### `timer_get` returns -/

/-- An upper bound on the calls that are due by `bound`. -/
def work (bound : Timeval) (T : Table) : Nat :=
  (T.queue.map fun p => (micros bound + 1 - micros (T.timer p).time).toNat).sum

/-- A call leaves less work: the timer is over, or its next time is later. -/
theorem work_lt (hs : T.Sound) (hr : Table.InRange T) (hsec : now.InRange)
    (hqueue : T.queue = p :: queue)
    (hnodup : T.queue.Nodup) {bound : Timeval} (hbound : bound.Normal)
    (hle : now ≤ bound) (hdue : ¬now < (T.timer p).time) :
    work bound (T.getPass now).1 < work bound T := by
  have hpmem : p ∈ T.queue := by rw [hqueue]; simp
  have hp : p ∉ queue := by
    rw [hqueue] at hnodup
    exact (List.nodup_cons.mp hnodup).1
  have htime : micros (T.timer p).time ≤ micros bound :=
    (le_iff_micros (hs.time p hpmem) hbound).mp ((not_lt.mp hdue).trans hle)
  have hwork : work bound T = (micros bound + 1 - micros (T.timer p).time).toNat +
      (queue.map fun q => (micros bound + 1 - micros (T.timer q).time).toNat).sum := by
    rw [work, hqueue, List.map_cons, List.sum_cons]
  by_cases hzero : (T.timer p).interval = ⟨0, 0⟩
  · simp only [Table.getPass, hqueue, if_neg hdue, if_pos hzero]
    show (queue.map fun q => (micros bound + 1 - micros (T.timer q).time).toNat).sum < _
    rw [hwork]
    omega
  -- A periodic timer stays in the queue, with a time that is later by its interval.
  · have hpos := micros_pos (hs.interval p (.inl hpmem)) (hr.interval p (.inl hpmem)).1 hzero
    have hsum := timeradd_of_due hr hs hpmem hsec (not_lt.mp hdue)
    let time := Timeval.plus (T.timer p).interval (T.timer p).time
    let timer := Function.update T.timer p
      { T.timer p with time := time, func := (T.timer p).func, client := (T.timer p).client }
    have hrest : (queue.map fun q => (micros bound + 1 - micros (timer q).time).toNat) =
        queue.map fun q => (micros bound + 1 - micros (T.timer q).time).toNat :=
      List.map_congr_left fun q hq => by
        have hne : q ≠ p := fun heq => hp (heq ▸ hq)
        rw [show timer q = T.timer q from Function.update_of_ne hne _ _]
    have hself : micros (timer p).time = micros (T.timer p).interval + micros (T.timer p).time := by
      rw [← micros_plus, show timer p = _ from Function.update_self ..]
    simp only [Table.getPass, hqueue, if_neg hdue, if_neg hzero, hsum]
    show ((queue.orderedInsert (Table.Earlier timer) p).map fun q =>
      (micros bound + 1 - micros (timer q).time).toNat).sum < _
    -- The place in the queue does not matter to the sum.
    rw [((List.perm_orderedInsert _ p queue).map _).sum_eq, List.map_cons, List.sum_cons, hrest,
      hwork, hself]
    omega

/-- `timer_get` returns, since no reading of the clock is past `2 ^ 62` seconds and each call
leaves less work up to then. -/
theorem returns_of_inRange (h : Represents t T []) (hs : T.Sound) (hr : Table.InRange T)
    (hnormal : ∀ n, (clock n).Normal) (hsec : ∀ n, (clock n).InRange) :
    ∃ fuel g out, timerGet idle clock fuel t = some (g, out) := by
  let bound : Timeval := ⟨4611686018427387904, 0⟩
  have hbound : bound.Normal := by decide
  have hclock : ∀ n, clock n ≤ bound := fun n => by
    show toLex ((clock n).tvSec, (clock n).tvUsec) ≤ toLex (4611686018427387904, 0)
    rw [Prod.Lex.toLex_le_toLex]
    exact .inl (hsec n).2
  -- the passes to come are at most the work that is left
  let inv : Nat → Getting → Prop := fun k g => ∃ T, Represents g.timers T [] ∧ T.Sound ∧
    Table.InRange T ∧ work bound T = k
  have hpass : ∀ k g, inv k g → PassOk (timerGetBody idle clock) inv (fun _ => True) k g := by
    rintro k g ⟨T, h, hs, hr, rfl⟩
    obtain ⟨t', hpass, h'⟩ := timerGetPass_spec h hs (hnormal g.reads)
    cases hqueue : T.queue with
    | nil =>
        simp only [Table.getPass, hqueue] at hpass
        exact .inr ⟨_, body_of_pass hpass, trivial⟩
    | cons p queue =>
        by_cases hlt : clock g.reads < (T.timer p).time
        · simp only [Table.getPass, hqueue, if_pos hlt] at hpass
          exact .inr ⟨_, body_of_pass hpass, trivial⟩
        · obtain ⟨hcall, hcalled⟩ :=
            called_of_due hs hr (hsec g.reads) hqueue h.disjoint h.queue.nodup hlt
          have hwork := work_lt hs hr (hsec g.reads) hqueue h.queue.nodup hbound
            (hclock g.reads) hlt
          rw [hcall] at hpass
          exact .inl ⟨_, _, body_of_pass hpass, ⟨_, h', hcalled.sound, hcalled.range, rfl⟩, hwork⟩
  obtain ⟨⟨g, out⟩, hrun, -⟩ := loop_rule inv hpass (s := ⟨t, 0, []⟩) ⟨T, h, hs, hr, rfl⟩
    (Nat.lt_succ_self _)
  refine ⟨work bound T + 1, g, out, ?_⟩
  simp only [timerGet, timerCheck_spec h hs, Option.bind_eq_bind, Option.bind_some]
  exact hrun

/-- The handlers leave the package alone, the clock does not go back, and all seconds are small.
Then `timer_get` returns. It makes exactly one call for every occurrence of a pending timer up
to its last reading of the clock, and it makes them in order. A timer that is not periodic is
over after its call, a periodic one is left at its first occurrence after that reading, and
the timeout is the time from that reading to the next timer. -/
theorem timerGet_serves (h : Represents t T []) (hs : T.Sound) (hr : Table.InRange T)
    (hclock : Monotone clock) (hnormal : ∀ n, (clock n).Normal)
    (hsec : ∀ n, (clock n).InRange) :
    (∀ fuel g out, timerGet idle clock fuel t = some (g, out) →
      ∃ T' sched, Represents g.timers T' [] ∧ Served T T' (clock (g.reads - 1)) sched ∧
        g.calls = sched.map (call T) ∧ Timeout T' (clock (g.reads - 1)) out) ∧
      ∃ fuel g out, timerGet idle clock fuel t = some (g, out) := by
  refine ⟨fun fuel g out hrun => ?_, returns_of_inRange h hs hr hnormal hsec⟩
  simp only [timerGet, timerCheck_spec h hs, Option.bind_eq_bind, Option.bind_some] at hrun
  obtain ⟨-, T', sched, hrep, hserved, hcalls, hout⟩ :=
    serves_from (g := ⟨t, 0, []⟩) h hs hr hclock hnormal hsec hrun
  exact ⟨T', sched, hrep, hserved, by simpa using hcalls, hout⟩

/-- Two timers are pending after `someOps`: one every two seconds from 13 on, and one at 20. -/
theorem timerGet_serves_someOps : ∃ t fuel g out T' sched,
    timerGet idle (fun _ => ⟨20, 0⟩) fuel t = some (g, out) ∧
      Served (after someOps) T' ⟨20, 0⟩ sched ∧ g.calls = sched.map (call (after someOps)) := by
  obtain ⟨t, -, -, h, hs, hr⟩ := bounded_from ⟨start_represents, start_sound, start_inRange⟩
    someOps_bounded
  have hclock : Monotone fun _ : Nat => (⟨20, 0⟩ : Timeval) := monotone_const
  have hspec := timerGet_serves h hs hr hclock (fun _ => by decide) fun _ => by decide
  obtain ⟨fuel, g, out, hrun⟩ := hspec.2
  obtain ⟨T', sched, -, hserved, hcalls, -⟩ := hspec.1 fuel g out hrun
  exact ⟨t, fuel, g, out, T', sched, hrun, hserved, hcalls⟩

end MyTestFiles.Proofs.Multimer
