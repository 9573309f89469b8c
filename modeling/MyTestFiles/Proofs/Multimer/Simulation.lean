import MyTestFiles.Proofs.Multimer.Refinement

/-!
# `MyTestFiles.Proofs.Multimer.Simulation`: the operations on the lists

Every operation of `Table` keeps `Table.Sound`: the queue is in time order, no client has two
timers and times are normal. On sound tables the assertions of the package hold, and so
`step_simulates`: an allowed operation does not fault and does what it does to the lists.

* The queue of `Table` is a list of the cells in the order of the linked list, and the free list
  is another one. No cell is in both, which is what the faithful model needs to write a cell
  without touching another list.
* `timerSet_spec` and `timerGetPass_spec` are the specifications of the two operations with loops.
  The walk along the queue is compared with the list functions `find?` and `takeWhile`, with the
  invariant that what lies behind the walk is unchanged.
* An assertion of the source that could fail would be a fault of the model, so the simulation also
  says that none does.

Every lemma on an operation has the same three parts: it does not fault, its result is that of the
lists, and the new links represent the new lists. So the simulation of a run is an induction with
nothing left to prove.
-/

set_option autoImplicit false

namespace MyTestFiles.Proofs.Multimer

open MyTestFiles.Lib MyTestFiles.Multimer

/-! ### Times -/

/-- A sum of normal times is normal: at most one second is carried. -/
theorem timeradd_normal {a b : Timeval} (ha : a.Normal) (hb : b.Normal) :
    (timeradd a b).Normal := by
  unfold Timeval.Normal at *
  have husec : int64 (a.tvUsec + b.tvUsec) = a.tvUsec + b.tvUsec :=
    int64_of_range (by omega) (by omega)
  unfold timeradd
  rw [husec]
  dsimp only
  split <;> constructor <;> dsimp only <;> omega

/-- A difference of normal times is normal: at most one second is borrowed. -/
theorem timeUntil_normal {a b : Timeval} (ha : a.Normal) (hb : b.Normal) :
    (Timers.timeUntil a b).Normal := by
  unfold Timeval.Normal at *
  have husec : int64 (a.tvUsec - b.tvUsec) = a.tvUsec - b.tvUsec :=
    int64_of_range (by omega) (by omega)
  unfold Timers.timeUntil
  rw [husec]
  dsimp only
  split <;> constructor <;> dsimp only <;> omega

/-! ### The table stays sound -/

/-- An entry put before the first that is larger. -/
theorem pairwise_orderedInsert {α β : Type*} [LinearOrder β] (key : α → β) (x : α) {l : List α}
    (h : l.Pairwise fun a b => key a ≤ key b) :
    (l.orderedInsert (fun a b => key a < key b) x).Pairwise fun a b => key a ≤ key b := by
  induction l with
  | nil => exact List.pairwise_singleton _ x
  | cons a l ih =>
      rw [List.pairwise_cons] at h
      by_cases hlt : key x < key a
      · rw [List.orderedInsert_cons_of_le (fun a b => key a < key b) l hlt]
        refine List.pairwise_cons.mpr ⟨fun b hb => ?_, List.pairwise_cons.mpr h⟩
        rcases List.mem_cons.mp hb with rfl | hb
        · exact hlt.le
        · exact hlt.le.trans (h.1 b hb)
      · rw [List.orderedInsert_of_not_le (fun a b => key a < key b) l hlt]
        refine List.pairwise_cons.mpr ⟨fun b hb => ?_, ih h.2⟩
        rcases (List.mem_orderedInsert _).mp hb with rfl | hb
        · exact not_lt.mp hlt
        · exact h.1 b hb

section Key
variable {α β : Type*} [DecidableEq β] (key : α → β) (k : β) {l : List α} {a : α}

/-- Where all keys are different, removing the first entry with a key removes all. -/
theorem eraseP_eq_filter (h : l.Pairwise fun a b => key a ≠ key b) :
    (l.eraseP fun a => key a = k) = l.filter fun a => key a ≠ k := by
  induction l with
  | nil => rfl
  | cons a l ih =>
      rw [List.pairwise_cons] at h
      by_cases ha : key a = k
      · have hall : l.filter (fun b => key b ≠ k) = l :=
          List.filter_eq_self.mpr fun b hb => by simpa [ha] using (h.1 b hb).symm
        rw [List.eraseP_cons_of_pos (by simpa using ha),
          List.filter_cons_of_neg (by simpa using ha),
          hall]
      · rw [List.eraseP_cons_of_neg (by simpa using ha),
          List.filter_cons_of_pos (by simpa using ha),
          ih h.2]

/-- A search by a key that no two entries share finds the one entry with it. -/
theorem find?_eq_some_iff_of_pairwise (h : l.Pairwise fun a b => key a ≠ key b) :
    (l.find? fun a => key a = k) = some a ↔ a ∈ l ∧ key a = k := by
  induction l with
  | nil => simp
  | cons b l ih =>
      rw [List.pairwise_cons] at h
      by_cases hb : key b = k
      · rw [List.find?_cons_of_pos (by simpa using hb)]
        constructor
        · rintro ⟨⟩
          exact ⟨by simp, hb⟩
        · rintro ⟨ha, hak⟩
          rcases List.mem_cons.mp ha with rfl | ha
          · rfl
          · exact absurd (hb.trans hak.symm) (h.1 a ha)
      · rw [List.find?_cons_of_neg (by simpa using hb), ih h.2, List.mem_cons]
        refine ⟨fun h => ⟨.inr h.1, h.2⟩, ?_⟩
        rintro ⟨rfl | ha, hak⟩
        · exact absurd hak hb
        · exact ⟨ha, hak⟩

end Key

namespace Table

variable {T : Table} {p q : Ptr} {client : NotifyClient}

/-- Each client has one timer, so taking out the first of a client takes out all. -/
theorem without_eq_filter (h : T.Sound) (client : NotifyClient) :
    T.without client = T.queue.filter fun p => (T.timer p).client ≠ client :=
  eraseP_eq_filter (fun p => (T.timer p).client) client h.clients

/-- Taking out the timer of a client leaves all others. -/
theorem mem_without_iff (h : T.Sound) :
    p ∈ T.without client ↔ p ∈ T.queue ∧ (T.timer p).client ≠ client := by
  rw [without_eq_filter h, List.mem_filter, decide_eq_true_iff]

/-- A client has a timer just where that is in the queue. -/
theorem find_eq_some_iff (h : T.Sound) :
    T.find client = some p ↔ p ∈ T.queue ∧ (T.timer p).client = client :=
  find?_eq_some_iff_of_pairwise (fun p => (T.timer p).client) client h.clients

/-- A client without a timer is nowhere in the queue. -/
theorem find_eq_none_iff : T.find client = none ↔ ∀ p ∈ T.queue, (T.timer p).client ≠ client := by
  unfold Table.find
  rw [List.find?_eq_none]
  simp

/-- Without a timer of the client, the queue stays as it is. -/
theorem without_eq_queue (h : T.Sound) (hfind : T.find client = none) :
    T.without client = T.queue := by
  rw [without_eq_filter h, List.filter_eq_self]
  simpa using find_eq_none_iff.mp hfind

/-- A client has one timer. -/
theorem eq_iff_client (h : T.Sound) (hfind : T.find client = some p) {q : Ptr}
    (hq : q ∈ T.queue) : q = p ↔ (T.timer q).client = client := by
  constructor
  · rintro rfl
    exact ((find_eq_some_iff h).mp hfind).2
  · intro hclient
    have heq := (find_eq_some_iff h).mpr ⟨hq, hclient⟩
    rw [hfind] at heq
    exact (Option.some.inj heq).symm

/-- The timer of the client and the others are the queue. -/
theorem eq_or_mem_without_iff (h : T.Sound) (hfind : T.find client = some p) {q : Ptr} :
    q = p ∨ q ∈ T.without client ↔ q ∈ T.queue := by
  rw [mem_without_iff h]
  constructor
  · rintro (rfl | ⟨hq, -⟩)
    · exact ((find_eq_some_iff h).mp hfind).1
    · exact hq
  · intro hq
    by_cases hclient : (T.timer q).client = client
    · exact .inl ((eq_iff_client h hfind hq).mpr hclient)
    · exact .inr ⟨hq, hclient⟩

/-- Fewer timers are sound, and what is free may change as long as its intervals are normal. -/
theorem sound_of_sublist (h : T.Sound) {queue free : List Ptr} (hqueue : queue.Sublist T.queue)
    (hfree : ∀ p ∈ free, p ∈ T.queue ∨ p ∈ T.free) :
    ({ T with queue := queue, free := free } : Table).Sound where
  sorted := h.sorted.sublist hqueue
  clients := h.clients.sublist hqueue
  time p hp := h.time p (hqueue.subset hp)
  interval p hp := by
    rcases hp with hp | hp
    · exact h.interval p (.inl (hqueue.subset hp))
    · exact h.interval p (hfree p hp)

/-- Setting a timer on an element off the queue, for a client without a timer. -/
theorem sound_arm (h : T.Sound) (hp : p ∉ T.queue)
    (hclient : ∀ q ∈ T.queue, (T.timer q).client ≠ client) {time : Timeval}
    (htime : time.Normal) (hinterval : (T.timer p).interval.Normal) (func : NotifyFunc) :
    (T.arm p time func client).Sound := by
  let timer := Function.update T.timer p
    { T.timer p with time := time, func := func, client := client }
  have hother : ∀ q, q ≠ p → timer q = T.timer q := fun q hq => Function.update_of_ne hq _ _
  have hself : timer p = { T.timer p with time := time, func := func, client := client } :=
    Function.update_self ..
  have hne : ∀ q ∈ T.queue, q ≠ p := fun q hq heq => hp (heq ▸ hq)
  have hmem : ∀ q, q ∈ (T.arm p time func client).queue ↔ q = p ∨ q ∈ T.queue :=
    fun q => List.mem_orderedInsert _
  -- The queue stays sorted, with one timer per client, and all times stay normal.
  refine ⟨?_, ?_, fun q hq => ?_, fun q hq => ?_⟩
  · show (T.queue.orderedInsert (fun a b => (timer a).time < (timer b).time) p).Pairwise
      fun a b => (timer a).time ≤ (timer b).time
    refine pairwise_orderedInsert (fun q => (timer q).time) p ?_
    refine h.sorted.imp_of_mem fun ha hb hab => ?_
    rw [hother _ (hne _ ha), hother _ (hne _ hb)]
    exact hab
  · show (T.queue.orderedInsert _ p).Pairwise fun a b => (timer a).client ≠ (timer b).client
    refine ((List.perm_orderedInsert _ p T.queue).pairwise_iff fun hab => hab.symm).mpr ?_
    refine List.pairwise_cons.mpr ⟨fun q hq => ?_, ?_⟩
    · rw [hself, hother q (hne q hq)]
      exact (hclient q hq).symm
    · refine h.clients.imp_of_mem fun ha hb hab => ?_
      rw [hother _ (hne _ ha), hother _ (hne _ hb)]
      exact hab
  · show (timer q).time.Normal
    rcases (hmem q).mp hq with rfl | hq
    · rw [hself]
      exact htime
    · rw [hother q (hne q hq)]
      exact h.time q hq
  · show (timer q).interval.Normal
    by_cases hqp : q = p
    · subst hqp
      rw [hself]
      exact hinterval
    · rw [hother q hqp]
      refine h.interval q ?_
      rcases hq with hq | hq
      · exact .inl (((hmem q).mp hq).resolve_left hqp)
      · exact .inr hq

/-- Soundness is about the times and clients on the queue, and about all intervals. -/
theorem sound_congr (h : T.Sound) {timer : Ptr → Timer}
    (hqueue : ∀ q ∈ T.queue, (timer q).time = (T.timer q).time ∧
      (timer q).client = (T.timer q).client)
    (hinterval : ∀ q, q ∈ T.queue ∨ q ∈ T.free → (timer q).interval.Normal) :
    ({ T with timer := timer } : Table).Sound where
  sorted := h.sorted.imp_of_mem fun ha hb hab => by
    rw [(hqueue _ ha).1, (hqueue _ hb).1]
    exact hab
  clients := h.clients.imp_of_mem fun ha hb hab => by
    rw [(hqueue _ ha).2, (hqueue _ hb).2]
    exact hab
  time q hq := by
    rw [(hqueue q hq).1]
    exact h.time q hq
  interval := hinterval

/-- A new element. -/
theorem sound_new (h : T.Sound) (hqueue : p ∉ T.queue) (hfree : T.free = []) :
    ({ T with timer := Function.update T.timer p Timer.new } : Table).Sound := by
  have hne : ∀ q ∈ T.queue, q ≠ p := fun q hq heq => hqueue (heq ▸ hq)
  refine sound_congr h (fun q hq => ?_) fun q hq => ?_
  · rw [Function.update_of_ne (hne q hq)]
    exact ⟨rfl, rfl⟩
  · rw [hfree] at hq
    have hq' := hq.resolve_right (by simp)
    rw [Function.update_of_ne (hne q hq')]
    exact h.interval q (.inl hq')

variable {interval : Option Timeval} {func : NotifyFunc} {relative : Bool} {now : Timeval}
  {fresh : Ptr}

/-- A new timer takes the element that was freed last. -/
theorem set_of_free (func : NotifyFunc) (relative : Bool) (i now : Timeval) (fresh : Ptr)
    {free : List Ptr} (hfind : T.find client = none)
    (hfree : T.free = p :: free) :
    T.set (some i) func client relative now fresh =
      ({ T with queue := T.without client, free := free }.arm p
        (if relative then timeradd now i else i) func client, p) := by
  simp only [Table.set, hfind, hfree]

/-- Setting a timer keeps the table sound. A new element is asked for only where no free one is
left. -/
theorem set_sound (h : T.Sound) (hdisj : T.queue.Disjoint T.free)
    (hinterval : ∀ i ∈ interval, i.Normal) (hnow : now.Normal)
    (hfresh : interval.isSome → T.free = [] → fresh ∉ T.queue) :
    (T.set interval func client relative now fresh).1.Sound := by
  have hsub : (T.without client).Sublist T.queue := List.eraseP_sublist
  have hclient : ∀ q ∈ T.without client, (T.timer q).client ≠ client := fun q hq =>
    ((mem_without_iff h).mp hq).2
  cases interval with
  | none =>
      cases hfind : T.find client with
      | none => simpa [Table.set, hfind] using h
      | some p =>
          simp only [Table.set, hfind]
          refine sound_of_sublist h hsub fun q hq => ?_
          rcases List.mem_cons.mp hq with rfl | hq
          · exact .inl ((find_eq_some_iff h).mp hfind).1
          · exact .inr hq
  | some i =>
      -- The element is the client's own, or a free one, or a new one, in this order.
      have htime : (if relative then timeradd now i else i).Normal := by
        have hi := hinterval i rfl
        split
        · exact timeradd_normal hnow hi
        · exact hi
      cases hfind : T.find client with
      | some p =>
          obtain ⟨hp, hpc⟩ := (find_eq_some_iff h).mp hfind
          simp only [Table.set, hfind]
          exact sound_arm (sound_of_sublist h hsub fun q hq => .inr hq)
            (fun hmem => hclient p hmem hpc) hclient htime (h.interval p (.inl hp)) func
      | none =>
          cases hfree : T.free with
          | cons p free =>
              have hp : p ∈ T.free := by rw [hfree]; simp
              simp only [Table.set, hfind, hfree]
              exact sound_arm
                (sound_of_sublist h hsub fun q hq => .inr (by rw [hfree]; simp [hq]))
                (fun hmem => hdisj (hsub.subset hmem) hp) hclient htime (h.interval p (.inr hp))
                func
          | nil =>
              have hnew : fresh ∉ T.without client := fun hmem =>
                hfresh rfl hfree (hsub.subset hmem)
              have hrest : ({ T with queue := T.without client, free := [] } : Table).Sound :=
                sound_of_sublist h hsub (by simp)
              simp only [Table.set, hfind, hfree]
              refine sound_arm (sound_new hrest hnew rfl) hnew (fun q hq => ?_) htime ?_ func
              · have hne : q ≠ fresh := fun heq => hnew (heq ▸ hq)
                show (Function.update T.timer fresh Timer.new q).client ≠ client
                rw [Function.update_of_ne hne]
                exact hclient q hq
              · show (Function.update T.timer fresh Timer.new fresh).interval.Normal
                rw [Function.update_self]
                decide

end Table

/-! ### The operations -/

variable {t t' : Timers} {T : Table} {held : List Ptr} {p : Ptr} {client : NotifyClient}
  {interval : Option Timeval} {func : NotifyFunc} {relative : Bool} {now : Timeval} {fresh : Ptr}

/-- The assertions of `timer_check` hold on a sound table. -/
theorem timerCheck_spec (h : Represents t T []) (hs : T.Sound) : t.timerCheck = some () := by
  let inv : Nat → Ptr → Prop := fun k np =>
    ∃ l, Chain null t.link np l ∧ l ⊆ T.queue ∧ k = l.length
  have hpass : ∀ k np, inv k np → PassOk t.timerCheckPass inv (fun _ => True) k np := by
    rintro k np ⟨l, hl, hsub, rfl⟩
    cases hl with
    | nil => exact .inr ⟨(), by simp [Timers.timerCheckPass], trivial⟩
    | @cons a b l hne hnext hrest =>
        have hmem : np ∈ T.queue := hsub (by simp)
        obtain ⟨e, he, hTe⟩ := h.exists_of_mem (p := np) (.inl hmem)
        have htime : e.time.tvUsec < 1000000 := by
          have hnormal := (hs.time np hmem).2
          rwa [← hTe] at hnormal
        have hinterval : e.interval.tvUsec < 1000000 := by
          have hnormal := (hs.interval np (.inl hmem)).2
          rwa [← hTe] at hnormal
        have hlink : e.link = b := by simpa [Timers.link, he] using hnext
        refine .inl ⟨b, l.length, ?_, ⟨l, hrest, fun x hx => hsub (by simp [hx]), rfl⟩, by simp⟩
        simp [Timers.timerCheckPass, hne, he, htime, hinterval, hlink]
  obtain ⟨r, hr, -⟩ := loop_rule inv hpass ⟨T.queue, h.queue, List.Subset.refl _, rfl⟩ h.length_le
  exact hr

/-- The free list is empty just where its pointer is null. -/
theorem freeTQEQ_eq_null (h : Represents t T []) (hfree : T.free = []) : t.freeTQEQ = null := by
  have hchain := h.free
  rw [hfree] at hchain
  generalize t.freeTQEQ = a at hchain ⊢
  cases hchain
  rfl

/-- The part of `timer_set` that follows once there is an element for the timer. -/
theorem arm_spec (h : Represents t T [p]) (hp : p ≠ null) {time : Timeval}
    (hs : (T.arm p time func client).Sound) :
    ∃ t', (do
        let t ← t.modify p fun e => { e with time := time, func := func, client := client }
        let t ← t.insertTimer p
        t.timerCheck
        some (t, p)) = some (t', p) ∧ Represents t' (T.arm p time func client) [] := by
  obtain ⟨t₁, ht₁, h₁⟩ := modify_spec h (p := p) (by simp)
    (f := fun e => { e with time := time, func := func, client := client })
    (g := fun e => { e with time := time, func := func, client := client })
    (fun _ => rfl) fun _ => rfl
  obtain ⟨t₂, ht₂, h₂⟩ := insertTimer_spec h₁ hp
  refine ⟨t₂, ?_, h₂⟩
  simp only [ht₁, ht₂, timerCheck_spec h₂ hs, Option.bind_eq_bind, Option.bind_some]

/-- `timer_set` does not fault on a sound table, and does to the pointers what `Table.set` does to
the lists. -/
theorem timerSet_spec (h : Represents t T []) (hs : T.Sound) (func : NotifyFunc)
    (client : NotifyClient) (relative : Bool)
    (hinterval : ∀ i ∈ interval, i.Normal) (hnow : now.Normal)
    (hfresh : interval.isSome → t.freeTQEQ = null → fresh ≠ null ∧ t.heap fresh = none) :
    ∃ t', t.timerSet interval func client relative now fresh =
        some (t', (T.set interval func client relative now fresh).2) ∧
      Represents t' (T.set interval func client relative now fresh).1 [] := by
  have hsound : (T.set interval func client relative now fresh).1.Sound :=
    Table.set_sound hs h.disjoint hinterval hnow fun hnew hfree hmem => by
      have hsome := h.heap_isSome_iff.mpr (.inl hmem)
      rw [(hfresh hnew (freeTQEQ_eq_null h hfree)).2] at hsome
      cases hsome
  obtain ⟨t₁, ht₁, h₁⟩ := unlinkClient_spec h client
  have hnull : ∀ p, T.find client = some p → p ≠ null := fun p hp =>
    h.queue.ne_null ((Table.find_eq_some_iff hs).mp hp).1
  cases interval with
  | none =>
      cases hfind : T.find client with
      | none =>
          rw [hfind] at ht₁ h₁
          refine ⟨t₁, ?_, ?_⟩
          · simp [Timers.timerSet, ht₁, Table.set, hfind]
          · rw [Table.without_eq_queue hs hfind] at h₁
            simpa [Table.set, hfind] using h₁
      | some p =>
          rw [hfind] at ht₁ h₁
          obtain ⟨t₂, ht₂, h₂⟩ := putFree_spec h₁ (hnull p hfind)
          refine ⟨t₂, ?_, ?_⟩
          · simp [Timers.timerSet, ht₁, Table.set, hfind, hnull p hfind, ht₂]
          · simpa [Table.set, hfind] using h₂
  | some i =>
      have hassert : ¬(relative = true ∧
          ¬(if relative then timeradd now i else i).tvUsec < 1000000) := by
        rintro ⟨rfl, hnot⟩
        exact hnot (timeradd_normal hnow (hinterval i rfl)).2
      cases hfind : T.find client with
      | some p =>
          -- the client has an element, which is used again
          rw [hfind] at ht₁ h₁
          simp only [Table.set, hfind] at hsound ⊢
          obtain ⟨t₂, ht₂, h₂⟩ := arm_spec h₁ (hnull p hfind) hsound
          refine ⟨t₂, ?_, h₂⟩
          simp only [Timers.timerSet, ht₁, Option.bind_eq_bind, Option.bind_some, Option.getD_some,
            if_neg (hnull p hfind), if_neg hassert]
          exact ht₂
      | none =>
          rw [hfind] at ht₁ h₁
          cases hfree : T.free with
          | cons p free =>
              -- the first free element
              obtain ⟨t₂, ht₂, h₂⟩ := takeFree_cons h₁ (T := { T with queue := T.without client })
                hfree fresh
              have hp : p ≠ null := h.free.ne_null (by rw [hfree]; simp)
              simp only [Table.set, hfind, hfree] at hsound ⊢
              obtain ⟨t₃, ht₃, h₃⟩ := arm_spec h₂ hp hsound
              refine ⟨t₃, ?_, h₃⟩
              simp only [Timers.timerSet, ht₁, Option.bind_eq_bind, Option.bind_some,
                Option.getD_none, if_true, ht₂, if_neg hassert]
              exact ht₃
          | nil =>
              -- a new element, which is still new when the client's timer is unlinked
              obtain ⟨hp, hnone⟩ := hfresh rfl (freeTQEQ_eq_null h hfree)
              have hnone₁ : t₁.heap fresh = none := by
                rw [← Option.not_isSome_iff_eq_none, h₁.heap_isSome_iff]
                rw [← Option.not_isSome_iff_eq_none, h.heap_isSome_iff] at hnone
                have hsub : (T.without client).Sublist T.queue := List.eraseP_sublist
                intro hmem
                simp only [Option.toList_none] at hmem
                exact hnone (hmem.imp_left fun hq => hsub.subset hq)
              obtain ⟨t₂, ht₂, h₂⟩ := takeFree_nil h₁ (T := { T with queue := T.without client })
                hfree hp hnone₁
              simp only [Table.set, hfind, hfree] at hsound ⊢
              simp only [hfree] at h₂
              obtain ⟨t₃, ht₃, h₃⟩ := arm_spec h₂ hp hsound
              refine ⟨t₃, ?_, h₃⟩
              simp only [Timers.timerSet, ht₁, Option.bind_eq_bind, Option.bind_some,
                Option.getD_none, if_true, ht₂, if_neg hassert]
              exact ht₃

/-! ### One pass of `timer_get` -/

/-- The queue is empty just where its pointer is null. -/
theorem queue_eq_nil_iff (h : Represents t T []) : t.timerQ = null ↔ T.queue = [] := by
  have hchain := h.queue
  generalize t.timerQ = a at hchain ⊢
  generalize T.queue = l at hchain ⊢
  cases hchain with
  | nil => simp
  | cons hne _ _ => simp [hne]

/-- `timerQ = tp->link;` takes the head off the queue. -/
theorem dequeue_spec (h : Represents t T []) {queue : List Ptr} (hqueue : T.queue = p :: queue) :
    ∃ e, t.timerQ = p ∧ p ≠ null ∧ t.heap p = some e ∧ e.timer = T.timer p ∧
      Represents { t with timerQ := e.link } { T with queue := queue } [p] := by
  have hchain := h.queue
  rw [hqueue] at hchain
  obtain ⟨e, he, hTe⟩ := h.exists_of_mem (p := p) (.inl (by rw [hqueue]; simp))
  -- The chain of the queue starts at the head, and its rest at the link of the head.
  obtain ⟨hp, hhead, hrest⟩ :
      p ≠ null ∧ t.timerQ = p ∧ Chain null t.link e.link queue := by
    generalize t.timerQ = a at hchain ⊢
    cases hchain with
    | cons hne hnext hrest =>
        simp only [Timers.link, he, Option.map_some, Option.some.injEq] at hnext
        subst hnext
        exact ⟨hne, rfl, hrest⟩
  have hnodup : (p :: queue).Nodup := hchain.nodup
  have hdisj := h.disjoint
  rw [hqueue, List.disjoint_cons_left] at hdisj
  refine ⟨e, hhead, hp, he, hTe, ⟨hrest, h.free, hdisj.2, ?_, ?_, fun q => ?_⟩⟩
  · exact List.disjoint_singleton.mpr (List.nodup_cons.mp hnodup).1
  · exact List.disjoint_singleton.mpr hdisj.1
  · show (t.heap q).map TQE.timer = _
    rw [h.heap]
    refine if_congr ?_ rfl rfl
    rw [hqueue]
    simp
    tauto

/-- An element of a list is in memory with the fields of its timer. -/
theorem heap_timer (h : Represents t T held) (hp : p ∈ T.queue ∨ p ∈ T.free ∨ p ∈ held) :
    ∃ e, t.heap p = some e ∧ e.func = (T.timer p).func ∧ e.client = (T.timer p).client ∧
      e.interval = (T.timer p).interval ∧ e.time = (T.timer p).time := by
  obtain ⟨e, he, hTe⟩ := h.exists_of_mem hp
  rw [← hTe]
  exact ⟨e, he, rfl, rfl, rfl, rfl⟩

namespace Table

/-- A pass keeps the table sound. -/
theorem getPass_sound (now : Timeval) (h : T.Sound) (hdisj : T.queue.Disjoint T.free)
    (hnodup : T.queue.Nodup) :
    (T.getPass now).1.Sound := by
  unfold Table.getPass
  cases hqueue : T.queue with
  | nil => exact h
  | cons p queue =>
      rw [hqueue] at hnodup hdisj
      have hsub : queue.Sublist T.queue := by
        rw [hqueue]
        exact List.sublist_cons_self p queue
      have hp : p ∈ T.queue := by rw [hqueue]; simp
      -- The head is not due, or is over, or goes back into the queue.
      dsimp only
      split
      · exact h
      · split
        · refine sound_of_sublist h hsub fun q hq => ?_
          rcases List.mem_cons.mp hq with rfl | hq
          · exact .inl hp
          · exact .inr hq
        · have hclients := h.clients
          rw [hqueue, List.pairwise_cons] at hclients
          exact sound_arm (sound_of_sublist h hsub fun q hq => .inr hq)
            (List.nodup_cons.mp hnodup).1 (fun q hq => (hclients.1 q hq).symm)
            (timeradd_normal (h.interval p (.inl hp)) (h.time p hp)) (h.interval p (.inl hp)) _

end Table

/-- `restart` on the element that has just been freed sets its timer again. -/
theorem restart_spec (h : Represents t T []) (hs : T.Sound) {free : List Ptr}
    (hfree : T.free = p :: free) (hclient : ∀ q ∈ T.queue, (T.timer q).client ≠ (T.timer p).client)
    (htime : (T.timer p).time.Normal) (hperiodic : (T.timer p).interval ≠ ⟨0, 0⟩) :
    ∃ t', t.restart p = some t' ∧
      Represents t' ({ T with free := free }.arm p
        (timeradd (T.timer p).interval (T.timer p).time) (T.timer p).func
        (T.timer p).client) [] := by
  have hmem : p ∈ T.free := by rw [hfree]; simp
  have hne : ∀ q ∈ T.queue, q ≠ p := fun q hq heq => h.disjoint hq (heq ▸ hmem)
  obtain ⟨e, he, hefunc, heclient, heinterval, hetime⟩ := heap_timer h (p := p) (.inr (.inl hmem))
  have hone : e.interval.tvSec ≠ 0 ∨ e.interval.tvUsec ≠ 0 := by
    by_contra hboth
    rw [not_or, not_not, not_not, heinterval] at hboth
    exact hperiodic (Timeval.ext hboth.1 hboth.2)
  -- the new time is written into the free element before `timer_set` takes it again
  let time := timeradd (T.timer p).interval (T.timer p).time
  have hnormal : time.Normal := timeradd_normal (hs.interval p (.inr hmem)) htime
  obtain ⟨t₁, ht₁, h₁⟩ := modify_spec h (p := p) (.inr (.inl hmem))
    (f := fun e => { e with time := time }) (g := fun e => { e with time := time })
    (fun _ => rfl) fun _ => rfl
  let timer := Function.update T.timer p { T.timer p with time := time }
  have hother : ∀ q ∈ T.queue, timer q = T.timer q := fun q hq =>
    Function.update_of_ne (hne q hq) _ _
  have hs₁ : ({ T with timer := timer } : Table).Sound := by
    refine Table.sound_congr hs (fun q hq => by rw [hother q hq]; exact ⟨rfl, rfl⟩) fun q hq => ?_
    by_cases hqp : q = p
    · subst hqp
      show (Function.update T.timer q _ q).interval.Normal
      rw [Function.update_self]
      exact hs.interval q hq
    · show (Function.update T.timer p _ q).interval.Normal
      rw [Function.update_of_ne hqp]
      exact hs.interval q hq
  have hfind : ({ T with timer := timer } : Table).find (T.timer p).client = none :=
    Table.find_eq_none_iff.mpr fun q hq => by
      show (timer q).client ≠ _
      rw [hother q hq]
      exact hclient q hq
  have hwithout : ({ T with timer := timer } : Table).without (T.timer p).client = T.queue :=
    Table.without_eq_queue hs₁ hfind
  have hempty : (some time).isSome → t₁.freeTQEQ = null → null ≠ null ∧ t₁.heap null = none :=
    fun _ hnull => by
      have hchain := h₁.free
      rw [hnull] at hchain
      have hnil : T.free = [] := by
        generalize T.free = l at hchain ⊢
        cases hchain with
        | nil => rfl
        | cons hne _ _ => exact absurd rfl hne
      rw [hnil] at hfree
      cases hfree
  obtain ⟨t₂, ht₂, h₂⟩ := timerSet_spec h₁ hs₁ (T.timer p).func (T.timer p).client false
    (by simpa using hnormal) (by decide : (⟨0, 0⟩ : Timeval).Normal) hempty
  have hset := Table.set_of_free (T := { T with timer := timer }) (T.timer p).func false time ⟨0, 0⟩
    null hfind hfree
  have harm : ({ T with queue := T.queue, free := free, timer := timer } : Table).arm p time
      (T.timer p).func (T.timer p).client =
      ({ T with free := free } : Table).arm p time (T.timer p).func (T.timer p).client := by
    simp [Table.arm, timer]
  simp only [hwithout, Bool.false_eq_true, if_false] at hset
  rw [harm] at hset
  refine ⟨t₂, ?_, ?_⟩
  · simp only [Timers.restart, he, Option.bind_eq_bind, Option.bind_some, heinterval, hetime,
      hefunc, heclient]
    rw [heinterval] at hone
    rw [if_pos hone]
    show ((t.modify p fun e => { e with time := time }).bind _) = _
    rw [ht₁]
    show ((t₁.timerSet (some time) _ _ false ⟨0, 0⟩ null).bind _) = _
    rw [ht₂]
    rfl
  · rw [hset] at h₂
    exact h₂

/-- A pass of `timer_get` does not fault on a sound table, and does what `Table.getPass` does. -/
theorem timerGetPass_spec (h : Represents t T []) (hs : T.Sound) (hnow : now.Normal) :
    ∃ t', t.timerGetPass now = some (t', (T.getPass now).2) ∧
      Represents t' (T.getPass now).1 [] := by
  cases hqueue : T.queue with
  | nil =>
      have hnull := (queue_eq_nil_iff h).mpr hqueue
      refine ⟨t, by simp [Timers.timerGetPass, hnull, Table.getPass, hqueue], ?_⟩
      simpa [Table.getPass, hqueue] using h
  | cons p queue =>
      obtain ⟨head, hhead, hp, hheap, hThead, h₁⟩ := dequeue_spec h hqueue
      have hmem : p ∈ T.queue := by rw [hqueue]; simp
      have htime : head.time = (T.timer p).time := by rw [← hThead]; rfl
      by_cases hlt : now < (T.timer p).time
      · -- the head timer has not expired
        have hnormal := (timeUntil_normal (hs.time p hmem) hnow).2
        refine ⟨t, ?_, by simpa [Table.getPass, hqueue, hlt] using h⟩
        simp [Timers.timerGetPass, hhead, hp, hheap, htime, timerless_eq, hlt, hnormal,
          Table.getPass, hqueue]
      · obtain ⟨t₂, ht₂, h₂⟩ := putFree_spec h₁ hp
        obtain ⟨e, he, hfunc, hclient, hinterval, hetime⟩ := heap_timer h₂ (p := p) (by simp)
        dsimp only at hfunc hclient hinterval hetime
        have hpass : t.timerGetPass now = (do
            let t ← t₂.restart p
            let e ← t.heap p
            some (t, .call e.func e.client)) := by
          simp [Timers.timerGetPass, hhead, hp, hheap, htime, timerless_eq, hlt, ht₂]
        rw [hpass]
        by_cases hzero : (T.timer p).interval = ⟨0, 0⟩
        · -- the timer is not periodic
          refine ⟨t₂, ?_, by simpa [Table.getPass, hqueue, hlt, hzero] using h₂⟩
          simp [Timers.restart, he, hfunc, hclient, hinterval, hzero, Table.getPass, hqueue, hlt]
        -- A periodic timer: `timer_set` takes the element that was just freed.
        · have hclients := hs.clients
          rw [hqueue, List.pairwise_cons] at hclients
          have hsub : queue.Sublist T.queue := by
            rw [hqueue]
            exact List.sublist_cons_self p queue
          have hs₂ : ({ T with queue := queue, free := p :: T.free } : Table).Sound :=
            Table.sound_of_sublist hs hsub fun q hq => by
              rcases List.mem_cons.mp hq with rfl | hq
              · exact .inl hmem
              · exact .inr hq
          obtain ⟨t₃, ht₃, h₃⟩ := restart_spec h₂ hs₂ rfl
            (fun q hq => (hclients.1 q hq).symm) (hs.time p hmem) hzero
          obtain ⟨e₃, he₃, hfunc₃, hclient₃, -, -⟩ := heap_timer h₃ (p := p)
            (.inl ((List.mem_orderedInsert _).mpr (.inl rfl)))
          refine ⟨t₃, ?_, by simpa [Table.getPass, hqueue, hlt, hzero] using h₃⟩
          rw [ht₃]
          simp only [Option.bind_eq_bind, Option.bind_some, he₃, hfunc₃, hclient₃, Table.getPass,
            hqueue, if_neg hlt, if_neg hzero]
          simp [Table.arm]

/-! ### The package refines the table -/

/-- The client of an interval may write to it between two calls. -/
theorem store_spec (h : Represents t T []) (hp : (t.heap p).isSome) (i : Timeval) :
    ∃ t', t.modify p (fun e => { e with interval := i }) = some t' ∧
      Represents t' (T.store p i) [] :=
  modify_spec h (h.heap_isSome_iff.mp hp) (g := fun e => { e with interval := i })
    (fun _ => rfl) fun _ => rfl

/-- A write of a normal interval keeps the table sound. -/
theorem store_sound (hs : T.Sound) {i : Timeval} (hi : i.Normal) : (T.store p i).Sound := by
  refine Table.sound_congr hs (fun q _ => ?_) fun q hq => ?_
  · by_cases hqp : q = p
    · subst hqp
      simp
    · simp [Function.update_of_ne hqp]
  · by_cases hqp : q = p
    · subst hqp
      simpa using hi
    · rw [Function.update_of_ne hqp]
      exact hs.interval q hq

/-- An allowed operation does not fault, does what it does to the lists, and keeps them
sound. -/
theorem step_simulates (t : Timers) (T : Table) (op : Op) (h : Represents t T [] ∧ T.Sound)
    (hallowed : op.Allowed t) :
    ∃ t', step t op = some (t', (T.step op).2) ∧
      Represents t' (T.step op).1 [] ∧ (T.step op).1.Sound := by
  obtain ⟨h, hs⟩ := h
  cases op with
  | set interval func client relative now fresh =>
      obtain ⟨hinterval, hnow, hfresh⟩ := hallowed
      obtain ⟨t', ht', h'⟩ := timerSet_spec h hs func client relative hinterval hnow
        hfresh
      refine ⟨t', by simp [step, ht', Table.step], h', ?_⟩
      refine Table.set_sound hs h.disjoint hinterval hnow fun hnew hfree hmem => ?_
      have hsome := h.heap_isSome_iff.mpr (.inl hmem)
      rw [(hfresh hnew (freeTQEQ_eq_null h hfree)).2] at hsome
      cases hsome
  | store p i =>
      obtain ⟨hp, hi⟩ := hallowed
      obtain ⟨t', ht', h'⟩ := store_spec h hp i
      exact ⟨t', by simp [step, ht', Table.step], h', store_sound hs hi⟩
  | get now =>
      obtain ⟨t', ht', h'⟩ := timerGetPass_spec h hs hallowed
      exact ⟨t', by simp [step, ht', Table.step], h',
        Table.getPass_sound _ hs h.disjoint h.queue.nodup⟩
  | pending =>
      refine ⟨t, ?_, h, hs⟩
      have hnil := queue_eq_nil_iff h
      cases hqueue : T.queue <;> simp_all [step, Table.step, Timers.timerPending]

end MyTestFiles.Proofs.Multimer
