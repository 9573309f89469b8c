import MyTestFiles.Proofs.Multimer.Range

/-!
# `MyTestFiles.Proofs.Multimer.Contract`: what the clients of the package see

A `Ledger` is what a client can know from the operations and their results alone: which
clients have a timer pending, for when, with which function, on which element, and what was
last stored as the interval of an element. It knows nothing of queues or links.

* `Ledger.record` is what an operation with its result adds to the ledger. An element that is
  used again keeps the interval that was stored in it, for whichever client it serves.
* `Ledger.Permits` says which results are right. Times are added without wrapping
  (`Timeval.plus`), so a timer whose time is past the end of a `long` may not be called.
* `Keeps` connects a ledger with the lists of `Table`: it says what the table holds.
* `run_permitted`: in every run of allowed operations with small seconds, all results are right.

The ledger is computed from the results, so the contract is one that a client can check. Which
element a client gets is left open by it: only that the element is not that of another pending
timer.

* `step_keeps` is the step lemma, with one lemma for each operation and, for `timer_set`, one for
  each place that the element may come from.
-/

set_option autoImplicit false

namespace MyTestFiles.Proofs.Multimer

open MyTestFiles.Lib MyTestFiles.Multimer

/-- A pending timer. -/
@[ext] structure Armed where
  time : Timeval
  func : NotifyFunc
  elem : Ptr

/-- What the operations and their results say. -/
structure Ledger where
  armed : NotifyClient → Option Armed
  interval : Ptr → Timeval

namespace Ledger

/-- No timer is pending, and nothing was stored. -/
def start : Ledger where
  armed _ := none
  interval _ := ⟨0, 0⟩

/-- What an operation with its result adds. A timer that is called goes on where the interval
of its element is not zero, and is no longer pending otherwise. -/
def record (L : Ledger) : Op → Returned → Ledger
  | .set (some interval) func client relative now _, .interval p =>
      let time := if relative then Timeval.plus now interval else interval
      { L with armed := Function.update L.armed client (some ⟨time, func, p⟩) }
  | .set none _ client _ _ _, _ => { L with armed := Function.update L.armed client none }
  | .store p interval, _ => { L with interval := Function.update L.interval p interval }
  | .get _, .get (.call func client) =>
      let next := (L.armed client).bind fun a =>
        if L.interval a.elem = ⟨0, 0⟩ then none
        else some ⟨Timeval.plus (L.interval a.elem) a.time, func, a.elem⟩
      { L with armed := Function.update L.armed client next }
  | _, _ => L

/-- `a` is pending for `client`, and no timer is pending for an earlier time. -/
def IsNext (L : Ledger) (client : NotifyClient) (a : Armed) : Prop :=
  L.armed client = some a ∧ ∀ client' a', L.armed client' = some a' → a.time ≤ a'.time

/-- The result is right for a client that knows the ledger. -/
def Permits (L : Ledger) : Op → Returned → Prop
  | .set (some _) _ client _ _ _, .interval p =>
      -- the client keeps its element, and no other client has it
      (∀ a, L.armed client = some a → a.elem = p) ∧
        ∀ client' a, L.armed client' = some a → a.elem = p → client' = client
  | .set none _ _ _ _ _, .interval p => p = null
  | .store _ _, .stored => True
  | .get now, .get (.call func client) =>
      ∃ a, L.IsNext client a ∧ a.func = func ∧ a.time ≤ now
  | .get now, .get (.timeout timeout) =>
      ∃ client a, L.IsNext client a ∧ now < a.time ∧ timeout.Normal ∧
        Timeval.plus now timeout = a.time
  | .get _, .get .empty => ∀ client, L.armed client = none
  | .pending, .pending b => b = true ↔ ∃ client, L.armed client ≠ none
  | _, _ => False

/-- The results of a run are all permitted. -/
def Allows : Ledger → List (Op × Returned) → Prop
  | _, [] => True
  | L, (op, r) :: rest => L.Permits op r ∧ (L.record op r).Allows rest

end Ledger

/-! ### The ledger of a table -/

variable {t : Timers} {T : Table} {L : Ledger} {armed : NotifyClient → Option Armed} {p : Ptr}
  {client : NotifyClient}

/-- The timer on the element `p`. -/
def entry (T : Table) (p : Ptr) : Armed := ⟨(T.timer p).time, (T.timer p).func, p⟩

/-- `armed` lists the timers on the queue. -/
def Lists (T : Table) (armed : NotifyClient → Option Armed) : Prop :=
  ∀ client a, armed client = some a ↔
    ∃ p ∈ T.queue, (T.timer p).client = client ∧ a = entry T p

/-- The ledger says what the table holds. An element that is not in use yet has no interval. -/
structure Keeps (T : Table) (L : Ledger) : Prop where
  armed : Lists T L.armed
  interval : ∀ p, p ∈ T.queue ∨ p ∈ T.free → L.interval p = (T.timer p).interval
  unused : ∀ p, p ∉ T.queue → p ∉ T.free → L.interval p = ⟨0, 0⟩

/-- A change of the table that the pending timers do not see. -/
theorem Lists.congr (h : Lists T armed) {T' : Table} (hqueue : T'.queue = T.queue)
    (hclient : ∀ p ∈ T.queue, (T'.timer p).client = (T.timer p).client)
    (hentry : ∀ p ∈ T.queue, entry T' p = entry T p) : Lists T' armed := by
  intro client a
  rw [h client a, hqueue]
  refine exists_congr fun p => and_congr_right fun hp => ?_
  rw [hclient p hp, hentry p hp]

/-- Without a timer of the client. -/
theorem Lists.without (h : Lists T armed) (hs : T.Sound) (client : NotifyClient) (free : List Ptr) :
    Lists { T with queue := T.without client, free := free }
      (Function.update armed client none) := by
  intro client' a
  show _ ↔ ∃ p ∈ T.without client, (T.timer p).client = client' ∧ a = entry T p
  simp only [Table.mem_without_iff hs]
  by_cases hc : client' = client
  · subst hc
    rw [Function.update_self]
    constructor
    · rintro ⟨⟩
    · rintro ⟨p, ⟨-, hne⟩, hclient, -⟩
      exact absurd hclient hne
  · rw [Function.update_of_ne hc, h client' a]
    refine exists_congr fun p => ?_
    constructor
    · rintro ⟨hp, hclient, ha⟩
      exact ⟨⟨hp, fun heq => hc (hclient.symm.trans heq)⟩, hclient, ha⟩
    · rintro ⟨⟨hp, -⟩, hclient, ha⟩
      exact ⟨hp, hclient, ha⟩

/-- With a timer of the client set. -/
theorem Lists.arm (h : Lists T armed) (hp : p ∉ T.queue)
    (hclient : ∀ q ∈ T.queue, (T.timer q).client ≠ client) (time : Timeval) (func : NotifyFunc) :
    Lists (T.arm p time func client) (Function.update armed client (some ⟨time, func, p⟩)) := by
  have hself : (T.arm p time func client).timer p =
      { T.timer p with time := time, func := func, client := client } := Function.update_self ..
  have hne : ∀ q ∈ T.queue, q ≠ p := fun q hq heq => hp (heq ▸ hq)
  have hother : ∀ q ∈ T.queue, (T.arm p time func client).timer q = T.timer q := fun q hq =>
    Function.update_of_ne (hne q hq) _ _
  have hmem : ∀ q, q ∈ (T.arm p time func client).queue ↔ q = p ∨ q ∈ T.queue :=
    fun q => List.mem_orderedInsert _
  intro client' a
  -- Only the client that is set has another timer than before.
  by_cases hc : client' = client
  · subst hc
    rw [Function.update_self]
    constructor
    · rintro ⟨⟩
      refine ⟨p, (hmem p).mpr (.inl rfl), by rw [hself], ?_⟩
      simp only [entry, hself]
    · rintro ⟨q, hq, hqc, rfl⟩
      rcases (hmem q).mp hq with rfl | hq
      · simp only [entry, hself]
      · rw [hother q hq] at hqc
        exact absurd hqc (hclient q hq)
  · rw [Function.update_of_ne hc, h client' a]
    constructor
    · rintro ⟨q, hq, hqc, rfl⟩
      refine ⟨q, (hmem q).mpr (.inr hq), by rw [hother q hq, hqc], ?_⟩
      simp only [entry, hother q hq]
    · rintro ⟨q, hq, hqc, rfl⟩
      rcases (hmem q).mp hq with rfl | hq
      · rw [hself] at hqc
        exact absurd hqc.symm hc
      · rw [hother q hq] at hqc
        refine ⟨q, hq, hqc, ?_⟩
        simp only [entry, hother q hq]

/-- Before the first operation both are empty. -/
theorem start_keeps : Keeps Table.start Ledger.start where
  armed client a := by simp [Ledger.start, Table.start]
  interval p hp := by simp [Table.start] at hp
  unused _ _ _ := rfl

/-! ### Each operation -/

variable {interval : Option Timeval} {func : NotifyFunc} {relative : Bool} {now : Timeval}
  {fresh : Ptr}

/-- An operation that neither stores nor allocates keeps the intervals. -/
theorem Keeps.of_armed (hk : Keeps T L) {T' : Table} {L' : Ledger} (harmed : Lists T' L'.armed)
    (hL : L'.interval = L.interval) (hinterval : ∀ p, (T'.timer p).interval = (T.timer p).interval)
    (hmem : ∀ p, p ∈ T'.queue ∨ p ∈ T'.free ↔ p ∈ T.queue ∨ p ∈ T.free) : Keeps T' L' where
  armed := harmed
  interval p hp := by rw [hL, hinterval, hk.interval p ((hmem p).mp hp)]
  unused p hq hf := by
    have hnot : ¬(p ∈ T.queue ∨ p ∈ T.free) := fun h => not_or.mpr ⟨hq, hf⟩ ((hmem p).mpr h)
    rw [hL, hk.unused p (fun h => hnot (.inl h)) fun h => hnot (.inr h)]

/-- The result of `timer_set` is right, and so is the ledger that records it. -/
def SetKeeps (T : Table) (L : Ledger) (interval : Option Timeval) (func : NotifyFunc)
    (client : NotifyClient) (relative : Bool) (now : Timeval) (fresh : Ptr) : Prop :=
  L.Permits (.set interval func client relative now fresh)
      (.interval (T.set interval func client relative now fresh).2) ∧
    Keeps (T.set interval func client relative now fresh).1
      (L.record (.set interval func client relative now fresh)
        (.interval (T.set interval func client relative now fresh).2))

/-- A cancellation. -/
theorem set_none_keeps (hs : T.Sound) (hk : Keeps T L) :
    SetKeeps T L none func client relative now fresh := by
  cases hfind : T.find client with
  | none =>
      have harmed := hk.armed.without hs client T.free
      rw [Table.without_eq_queue hs hfind] at harmed
      simp only [SetKeeps, Table.set, hfind]
      exact ⟨rfl, hk.of_armed harmed rfl (fun _ => rfl) fun _ => Iff.rfl⟩
  | some p =>
      have harmed := hk.armed.without hs client (p :: T.free)
      simp only [SetKeeps, Table.set, hfind]
      refine ⟨rfl, hk.of_armed harmed rfl (fun _ => rfl) fun q => ?_⟩
      -- the element goes from one queue to the other
      show q ∈ T.without client ∨ q ∈ p :: T.free ↔ _
      rw [← Table.eq_or_mem_without_iff hs hfind, List.mem_cons]
      tauto

/-- The result of `timer_set` is the element of the client, or one that nobody has. -/
theorem permits_set (hk : Keeps T L) {i : Timeval}
    (hp : ∀ q ∈ T.queue, q = p ↔ (T.timer q).client = client) :
    L.Permits (.set (some i) func client relative now fresh) (.interval p) := by
  refine ⟨fun a ha => ?_, fun client' a ha hap => ?_⟩
  · obtain ⟨q, hq, hqc, rfl⟩ := (hk.armed _ _).mp ha
    exact (hp q hq).mpr hqc
  · obtain ⟨q, hq, rfl, rfl⟩ := (hk.armed _ _).mp ha
    exact (hp q hq).mp hap

/-- The client has an element. -/
theorem set_again_keeps (hs : T.Sound) (hk : Keeps T L) {i : Timeval}
    (hsum : (if relative then timeradd now i else i) =
      if relative then Timeval.plus now i else i)
    (hfind : T.find client = some p) :
    SetKeeps T L (some i) func client relative now fresh := by
  have hwithout : ∀ q ∈ T.without client, (T.timer q).client ≠ client := fun q hq =>
    ((Table.mem_without_iff hs).mp hq).2
  have hpc : (T.timer p).client = client := ((Table.find_eq_some_iff hs).mp hfind).2
  have harmed := (hk.armed.without hs client T.free).arm (fun hmem => hwithout p hmem hpc)
    hwithout (if relative then Timeval.plus now i else i) func
  rw [Function.update_idem] at harmed
  simp only [SetKeeps, Table.set, hfind, hsum]
  refine ⟨permits_set hk fun q hq => Table.eq_iff_client hs hfind hq,
    hk.of_armed harmed rfl (fun q => interval_arm ..) fun q => ?_⟩
  rw [mem_arm]
  show (q = p ∨ q ∈ T.without client) ∨ q ∈ T.free ↔ _
  rw [Table.eq_or_mem_without_iff hs hfind]

/-- The client gets an element that is free. -/
theorem set_free_keeps (h : Represents t T []) (hs : T.Sound) (hk : Keeps T L) {i : Timeval}
    (hsum : (if relative then timeradd now i else i) =
      if relative then Timeval.plus now i else i)
    {free : List Ptr} (hfind : T.find client = none) (hfree : T.free = p :: free) :
    SetKeeps T L (some i) func client relative now fresh := by
  have hnone := Table.find_eq_none_iff.mp hfind
  have hall := Table.without_eq_queue hs hfind
  have hp : p ∉ T.queue := fun hmem => h.disjoint hmem (by rw [hfree]; simp)
  have hne : ∀ q ∈ T.queue, q ≠ p := fun q hq heq => hp (heq ▸ hq)
  have harmed := (hk.armed.without hs client free).arm (by rw [hall]; exact hp)
    (by rw [hall]; exact hnone) (if relative then Timeval.plus now i else i) func
  rw [Function.update_idem] at harmed
  simp only [SetKeeps, Table.set, hfind, hfree, hsum]
  refine ⟨permits_set hk fun q hq => iff_of_false (hne q hq) (hnone q hq),
    hk.of_armed harmed rfl (fun q => interval_arm ..) fun q => ?_⟩
  rw [mem_arm]
  show (q = p ∨ q ∈ T.without client) ∨ q ∈ free ↔ _
  rw [hall, hfree, List.mem_cons]
  tauto

/-- The client gets a new element, whose interval is zero. -/
theorem set_new_keeps (h : Represents t T []) (hs : T.Sound) (hk : Keeps T L) {i : Timeval}
    (hsum : (if relative then timeradd now i else i) =
      if relative then Timeval.plus now i else i)
    (hfind : T.find client = none) (hfree : T.free = []) (hfresh : t.heap fresh = none) :
    SetKeeps T L (some i) func client relative now fresh := by
  have hnone := Table.find_eq_none_iff.mp hfind
  have hall := Table.without_eq_queue hs hfind
  have hout : ¬(fresh ∈ T.queue ∨ fresh ∈ T.free ∨ fresh ∈ ([] : List Ptr)) := by
    rw [← h.heap_isSome_iff, hfresh]
    simp
  have hp : fresh ∉ T.queue := fun hmem => hout (.inl hmem)
  have hne : ∀ q ∈ T.queue, q ≠ fresh := fun q hq heq => hp (heq ▸ hq)
  let T' : Table := { T with timer := Function.update T.timer fresh Timer.new }
  -- what is pending does not see the new element
  have hsame : ∀ q ∈ T.queue, T'.timer q = T.timer q := fun q hq =>
    Function.update_of_ne (hne q hq) _ _
  have hlists : Lists { T' with queue := T.queue, free := [] }
      (Function.update L.armed client none) := by
    have hbase := hk.armed.without hs client []
    rw [hall] at hbase
    refine hbase.congr rfl (fun q hq => by rw [← hsame q hq]) fun q hq => ?_
    show Armed.mk (T'.timer q).time (T'.timer q).func q = _
    rw [hsame q hq]
    rfl
  have harmed := hlists.arm hp (fun q hq => by
    show (T'.timer q).client ≠ client
    rw [hsame q hq]
    exact hnone q hq) (if relative then Timeval.plus now i else i) func
  rw [Function.update_idem] at harmed
  simp only [SetKeeps, Table.set, hfind, hfree, hall, hsum]
  refine ⟨permits_set hk fun q hq => iff_of_false (hne q hq) (hnone q hq), harmed,
    fun q hq => ?_, fun q hq _ => ?_⟩
  · rw [interval_arm]
    show L.interval q = (T'.timer q).interval
    rcases hq with hq | hq
    · rcases mem_arm.mp hq with rfl | hq
      · -- nothing was ever stored in the new element
        rw [hk.unused q hp fun hmem => hout (.inr (.inl hmem))]
        show _ = (Function.update T.timer q Timer.new q).interval
        rw [Function.update_self]
        rfl
      · have hq' : q ∈ T.queue := hq
        rw [hsame q hq', hk.interval q (.inl hq')]
    · simp [Table.arm] at hq
  · rw [mem_arm, not_or] at hq
    exact hk.unused q hq.2 (by rw [hfree]; simp)

/-- A timer that is set. The three cases differ in where the element comes from. -/
theorem set_some_keeps (h : Represents t T []) (hs : T.Sound) (hk : Keeps T L) {i : Timeval}
    (hsum : (if relative then timeradd now i else i) =
      if relative then Timeval.plus now i else i)
    (hfresh : T.free = [] → t.heap fresh = none) :
    SetKeeps T L (some i) func client relative now fresh := by
  cases hfind : T.find client with
  | some p => exact set_again_keeps hs hk hsum hfind
  | none =>
      cases hfree : T.free with
      | cons p free => exact set_free_keeps h hs hk hsum hfind hfree
      | nil => exact set_new_keeps h hs hk hsum hfind hfree (hfresh hfree)

/-- A store through the pointer that `timer_set` returned. -/
theorem store_keeps (h : Represents t T []) (hk : Keeps T L) (hp : (t.heap p).isSome)
    (i : Timeval) : Keeps (T.store p i) (L.record (.store p i) .stored) := by
  have hmem : p ∈ T.queue ∨ p ∈ T.free := by simpa using h.heap_isSome_iff.mp hp
  have hsame : ∀ q, q ≠ p → (T.store p i).timer q = T.timer q := fun q hq =>
    Function.update_of_ne hq _ _
  have hself : (T.store p i).timer p = { T.timer p with interval := i } := Function.update_self ..
  refine ⟨hk.armed.congr rfl (fun q _ => ?_) fun q _ => ?_, fun q hq => ?_, fun q hq hf => ?_⟩
  · by_cases hqp : q = p
    · subst hqp
      rw [hself]
    · rw [hsame q hqp]
  · by_cases hqp : q = p
    · subst hqp
      simp only [entry, hself]
    · simp only [entry, hsame q hqp]
  · show Function.update L.interval p i q = _
    by_cases hqp : q = p
    · subst hqp
      rw [Function.update_self, hself]
    · rw [Function.update_of_ne hqp, hsame q hqp, hk.interval q hq]
  · have hqp : q ≠ p := by
      rintro rfl
      exact hmem.elim hq hf
    show Function.update L.interval p i q = _
    rw [Function.update_of_ne hqp, hk.unused q hq hf]

/-- The head of the queue is the next timer. -/
theorem isNext_head (hs : T.Sound) (hk : Keeps T L) {queue : List Ptr}
    (hqueue : T.queue = p :: queue) : L.IsNext (T.timer p).client (entry T p) := by
  have hsorted := hs.sorted
  rw [hqueue, List.pairwise_cons] at hsorted
  refine ⟨(hk.armed _ _).mpr ⟨p, by rw [hqueue]; simp, rfl, rfl⟩, fun client' a' ha' => ?_⟩
  obtain ⟨q, hq, -, rfl⟩ := (hk.armed _ _).mp ha'
  rw [hqueue] at hq
  rcases List.mem_cons.mp hq with rfl | hq
  · exact le_rfl
  · exact hsorted.1 q hq

/-- A pass of `timer_get` calls the head of the queue where it is due, and returns the time to
it otherwise. -/
theorem get_keeps (h : Represents t T []) (hs : T.Sound) (hk : Keeps T L)
    (hr : Table.InRange T) (hnow : now.Normal) (hsec : now.InRange) :
    L.Permits (.get now) (.get (T.getPass now).2) ∧
      Keeps (T.getPass now).1 (L.record (.get now) (.get (T.getPass now).2)) := by
  -- The head of the queue is the only timer that a pass looks at.
  cases hqueue : T.queue with
  | nil =>
      simp only [Table.getPass, hqueue]
      refine ⟨fun client => ?_, hk⟩
      rw [Option.eq_none_iff_forall_not_mem]
      intro a ha
      obtain ⟨q, hq, -⟩ := (hk.armed _ _).mp ha
      rw [hqueue] at hq
      simp at hq
  | cons p queue =>
      have hnext := isNext_head hs hk hqueue
      have hp : p ∈ T.queue := by rw [hqueue]; simp
      have hwithout : T.without (T.timer p).client = queue := by
        simp [Table.without, hqueue]
      have hinterval : L.interval p = (T.timer p).interval :=
        hk.interval p (.inl hp)
      by_cases hlt : now < (T.timer p).time
      · simp only [Table.getPass, hqueue, if_pos hlt]
        have htime := hr.time p hp
        unfold Timeval.InRange at hsec
        exact ⟨⟨_, _, hnext, hlt, timeUntil_normal (hs.time p hp) hnow,
          plus_timeUntil (hs.time p hp) hnow (by omega) (by omega)⟩, hk⟩
      · by_cases hzero : (T.timer p).interval = ⟨0, 0⟩
        · -- the timer is not periodic: it is over
          have harmed := hk.armed.without hs (T.timer p).client (p :: T.free)
          rw [hwithout] at harmed
          simp only [Table.getPass, hqueue, if_neg hlt, if_pos hzero]
          refine ⟨⟨_, hnext, rfl, not_lt.mp hlt⟩, ?_⟩
          refine hk.of_armed ?_ rfl (fun _ => rfl) fun q => ?_
          · simpa only [Ledger.record, hnext.1, Option.bind_some, entry, hinterval, if_pos hzero]
              using harmed
          · show q ∈ queue ∨ q ∈ p :: T.free ↔ _
            rw [hqueue]
            simp only [List.mem_cons]
            tauto
        -- A periodic timer goes back into the queue, for its own client.
        · have hnodup := h.queue.nodup
          rw [hqueue] at hnodup
          have hclients := hs.clients
          rw [hqueue, List.pairwise_cons] at hclients
          have harmed := hk.armed.without hs (T.timer p).client T.free
          rw [hwithout] at harmed
          have hagain := harmed.arm (List.nodup_cons.mp hnodup).1
            (fun q hq => (hclients.1 q hq).symm)
            (Timeval.plus (T.timer p).interval (T.timer p).time) (T.timer p).func
          rw [Function.update_idem] at hagain
          have hsum := timeradd_of_due hr hs hp hsec (not_lt.mp hlt)
          simp only [Table.getPass, hqueue, if_neg hlt, if_neg hzero, hsum]
          refine ⟨⟨_, hnext, rfl, not_lt.mp hlt⟩, ?_⟩
          refine hk.of_armed ?_ rfl (fun _ => interval_arm ..) fun q => ?_
          · simpa only [Ledger.record, hnext.1, Option.bind_some, entry, hinterval, if_neg hzero]
              using hagain
          · rw [mem_arm, hqueue, List.mem_cons]
            exact Iff.rfl

/-- In a small operation on small times, the sum that `timer_set` makes does not overflow. -/
theorem set_sum {i : Timeval} (hi : i.Normal) (hnow : now.Normal)
    (hop : (Op.set (some i) func client relative now fresh).InRange) :
    (if relative then timeradd now i else i) = if relative then Timeval.plus now i else i := by
  obtain ⟨hisec, hsec⟩ := hop
  have hisec' := hisec i rfl
  unfold Timeval.InRange at hsec
  cases relative with
  | false => rfl
  | true => exact timeradd_eq_plus hnow hi (by omega) (by omega)

/-- Every operation returns what the ledger permits, and the ledger goes on saying what the
table holds. -/
theorem step_keeps (h : Represents t T []) (hs : T.Sound) (hk : Keeps T L)
    (hr : Table.InRange T) {op : Op} (hop : op.Bounded t) :
    L.Permits op (T.step op).2 ∧ Keeps (T.step op).1 (L.record op (T.step op).2) := by
  obtain ⟨hallowed, hrange⟩ := hop
  -- Each operation has its own lemma, apart from `timer_pending`, which only reads.
  cases op with
  | set interval func client relative now fresh =>
      cases interval with
      | none => exact set_none_keeps hs hk
      | some i =>
          exact set_some_keeps h hs hk (set_sum (hallowed.1 i rfl) hallowed.2.1 hrange)
            fun hfree => (hallowed.2.2 rfl (freeTQEQ_eq_null h hfree)).2
  | store p i => exact ⟨trivial, store_keeps h hk hallowed.1 i⟩
  | get now => exact get_keeps h hs hk hr hallowed hrange
  | pending =>
      refine ⟨?_, hk⟩
      show (!T.queue.isEmpty) = true ↔ _
      constructor
      · intro hsome
        cases hqueue : T.queue with
        | nil => simp [hqueue] at hsome
        | cons p queue =>
            refine ⟨(T.timer p).client, ?_⟩
            rw [(isNext_head hs hk hqueue).1]
            simp
      · rintro ⟨client, hclient⟩
        obtain ⟨a, ha⟩ := Option.ne_none_iff_exists'.mp hclient
        obtain ⟨q, hq, -⟩ := (hk.armed _ _).mp ha
        simpa using List.ne_nil_of_mem hq

/-- The results of a run from a table that the ledger keeps. -/
theorem allows_from {ops : List Op} {os : List Returned} {t' : Timers} (h : Represents t T [])
    (hs : T.Sound) (hk : Keeps T L) (hr : Table.InRange T)
    (hallowed : RunMeets step Op.Bounded t ops)
    (hrun : run step t ops = some (t', os)) : L.Allows (ops.zip os) := by
  induction ops generalizing t T L os with
  | nil =>
      cases hrun
      trivial
  | cons op ops ih =>
      obtain ⟨hop, hrest⟩ := hallowed
      obtain ⟨t₁, o, os', hstep, hrun', rfl⟩ := run_cons_eq_some hrun
      obtain ⟨t₂, hstep', h₁, hs₁⟩ := step_simulates t T op ⟨h, hs⟩ hop.1
      rw [hstep] at hstep'
      cases hstep'
      obtain ⟨hpermits, hk₁⟩ := step_keeps h hs hk hr hop
      exact ⟨hpermits, ih h₁ hs₁ hk₁ (step_inRange hr hs hop) (hrest t₁ _ hstep) hrun'⟩

/-- In every run of allowed operations with small seconds, the results are what the operations
and results before promise. A timer is called only while it is pending, for the function that
was set last, not before its time and before every timer with a later time. It is called once,
or again after the interval stored in its element. A timeout is the time to the next timer. -/
theorem run_permitted {ops : List Op} {os : List Returned} {t : Timers}
    (hallowed : RunMeets step Op.Bounded Timers.start ops)
    (hrun : run step Timers.start ops = some (t, os)) : Ledger.start.Allows (ops.zip os) :=
  allows_from start_represents start_sound start_keeps start_inRange hallowed hrun

/-- A periodic timer, a timer that is cancelled and one for a third client. -/
theorem run_permitted_someOps : ∃ t os, run step Timers.start someOps = some (t, os) ∧
    Ledger.start.Allows (someOps.zip os) := by
  obtain ⟨t, os, hrun, -⟩ := bounded_from ⟨start_represents, start_sound, start_inRange⟩
    someOps_bounded
  exact ⟨t, os, hrun, run_permitted someOps_bounded hrun⟩

end MyTestFiles.Proofs.Multimer
