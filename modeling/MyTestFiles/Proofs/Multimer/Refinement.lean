import MyTestFiles.Multimer.Table

/-!
# `MyTestFiles.Proofs.Multimer.Refinement`: the linked queues are the lists

`Represents t T held`: the links of `t` chain the elements of the two queues of `T`, the
elements in `held` are between two queues, and every element holds what `T` says. Each helper
of `timer_set` and `timer_get` moves an element or changes a held one. `step_simulates` puts
them together: an allowed operation does not fault and does what it does to the lists.

The pointers of an operation go through states in which an element is in neither queue. `held`
lists these elements, so that the relation holds between any two statements and each helper has a
specification of its own.

* The specification of a helper gives the new state and a new table, so callers never look at
  links again. `unlinkClient_spec` and `insertTimer_spec` are the two scans of `timer_set`, and
  `putFree_spec` and `takeFree_cons` the moves between the queues.
* Frames come from `Chain.congr`: a chain depends on the links of its own nodes only, so a write
  to a held element leaves both queues alone.
-/

set_option autoImplicit false

namespace MyTestFiles.Proofs.Multimer

open MyTestFiles.Lib MyTestFiles.Multimer

/-- The links of `t` chain the two queues of `T`, `held` is what is in neither, and each element
has the contents that `T` says. -/
structure Represents (t : Timers) (T : Table) (held : List Ptr) : Prop where
  queue : Chain null t.link t.timerQ T.queue
  free : Chain null t.link t.freeTQEQ T.free
  disjoint : T.queue.Disjoint T.free
  queue_held : T.queue.Disjoint held
  free_held : T.free.Disjoint held
  heap : ∀ p, (t.heap p).map TQE.timer =
    if p ∈ T.queue ∨ p ∈ T.free ∨ p ∈ held then some (T.timer p) else none

variable {t t' : Timers} {T : Table} {held : List Ptr} {p q : Ptr}

namespace Represents

/-- An element that is listed is in memory, with the contents that the table says. -/
theorem exists_of_mem (h : Represents t T held) (hp : p ∈ T.queue ∨ p ∈ T.free ∨ p ∈ held) :
    ∃ e, t.heap p = some e ∧ e.timer = T.timer p := by
  have hheap := h.heap p
  rw [if_pos hp] at hheap
  exact Option.map_eq_some_iff.mp hheap

/-- Nothing else is in memory. -/
theorem heap_isSome_iff (h : Represents t T held) :
    (t.heap p).isSome ↔ p ∈ T.queue ∨ p ∈ T.free ∨ p ∈ held := by
  have hheap := h.heap p
  rw [← Option.isSome_map (f := TQE.timer), hheap]
  split <;> simp_all

/-- The queue has at most as many elements as there are addresses. -/
theorem length_le (h : Represents t T held) : T.queue.length < 2 ^ 64 + 1 := by
  have hle := h.queue.nodup.length_le_card
  rw [← FinEnum.card_eq_fintypeCard, FinEnum.card_bitVec] at hle
  omega

end Represents

/-! ### Single assignments -/

/-- A write of an element changes its own link. -/
theorem link_put (t : Timers) (p : Ptr) (e : TQE) :
    (t.put p e).link = Function.update t.link p (some e.link) := by
  funext q
  by_cases hq : q = p
  · subst hq
    simp [Timers.link, Timers.put]
  · simp [Timers.link, Timers.put, hq]

/-- `p->link = q` changes that link and nothing else. -/
theorem setLink_spec (t : Timers) (q : Ptr) (hp : (t.heap p).isSome) :
    ∃ t', t.setLink p q = some t' ∧ t'.link = Function.update t.link p (some q) ∧
      t'.timerQ = t.timerQ ∧ t'.freeTQEQ = t.freeTQEQ ∧
      ∀ r, (t'.heap r).map TQE.timer = (t.heap r).map TQE.timer := by
  obtain ⟨e, he⟩ := Option.isSome_iff_exists.mp hp
  refine ⟨t.put p { e with link := q }, by simp [Timers.setLink, Timers.modify, he], ?_, rfl, rfl,
    fun r => ?_⟩
  · rw [link_put]
  · by_cases hr : r = p
    · subst hr
      simp [Timers.put, he, TQE.timer]
    · simp [Timers.put, hr]

/-- `op->link = q`, where `op` is the last of the elements `pre` in front, or `&timerQ`. -/
theorem setNext_spec (t : Timers) (q : Ptr) (pre : List Ptr) (hnull : ∀ p ∈ pre, p ≠ null)
    (hpre : ∀ p ∈ pre, (t.heap p).isSome) :
    ∃ t', t.setNext (pre.getLastD null) q = some t' ∧
      t'.timerQ = (if pre = [] then q else t.timerQ) ∧ t'.freeTQEQ = t.freeTQEQ ∧
      (∀ p, pre.getLast? = some p → t'.link p = some q) ∧
      (∀ p, pre.getLast? ≠ some p → t'.link p = t.link p) ∧
      ∀ r, (t'.heap r).map TQE.timer = (t.heap r).map TQE.timer := by
  cases hlast : pre.getLast? with
  | none =>
      obtain rfl := List.getLast?_eq_none_iff.mp hlast
      exact ⟨{ t with timerQ := q }, by simp [Timers.setNext], rfl, rfl, by simp, fun _ _ => rfl,
        fun _ => rfl⟩
  | some op =>
      have hmem := List.mem_of_getLast? hlast
      have hop : pre.getLastD null = op := by rw [List.getLastD_eq_getLast?, hlast]; rfl
      obtain ⟨t', ht', hlink, hq, hfree, hheap⟩ := setLink_spec t q (hpre op hmem)
      refine ⟨t', ?_, ?_, hfree, ?_, ?_, hheap⟩
      · rw [hop, Timers.setNext, if_neg (hnull op hmem), ht']
      · rw [hq, if_neg (List.ne_nil_of_mem hmem)]
      · intro p hp
        cases hp
        rw [hlink, Function.update_self]
      · intro p hp
        rw [hlink, Function.update_of_ne (fun heq => hp (by rw [heq]))]

/-! ### Scans -/

/-- `timerless` is the order of times. -/
theorem timerless_eq (a b : Timeval) : timerless a b = decide (a < b) := by
  refine decide_eq_decide.mpr ?_
  show _ ↔ toLex (a.tvSec, a.tvUsec) < toLex (b.tvSec, b.tvUsec)
  rw [Prod.Lex.toLex_lt_toLex]

/-- A scan stops between the elements it passes over and the rest. -/
theorem scan_eq (h : Represents t T held) {stop : TQE → Bool} {f : Ptr → Bool}
    (hstop : ∀ p e, t.heap p = some e → e.timer = T.timer p → stop e = f p) :
    t.scan stop = some ((T.queue.takeWhile fun p => !f p).getLastD null,
      (T.queue.dropWhile fun p => !f p).headD null) := by
  refine search_eq null h.queue (fun p hp => ?_) h.length_le
  obtain ⟨e, he, hTp⟩ := h.exists_of_mem (.inl hp)
  rw [he, Option.map_some, hstop p e he hTp]

/-- A search is a walk that stops at the first hit. -/
theorem find?_eq_head?_dropWhile {α : Type*} (f : α → Bool) (l : List α) :
    l.find? f = (l.dropWhile fun p => !f p).head? := by
  induction l with
  | nil => rfl
  | cons p l ih => cases hp : f p <;> simp [hp, ih]

/-- Taking out the first hit leaves what is before and what is behind it. -/
theorem eraseP_eq_takeWhile_append {α : Type*} (f : α → Bool) (l : List α) :
    l.eraseP f = (l.takeWhile fun p => !f p) ++ (l.dropWhile fun p => !f p).tail := by
  induction l with
  | nil => rfl
  | cons p l ih => cases hp : f p <;> simp [hp, ih]

/-- A node in front of the last is not the last. -/
theorem getLast?_ne_of_mem_dropLast {α : Type*} {l : List α} {a : α} (hl : l.Nodup)
    (ha : a ∈ l.dropLast) : l.getLast? ≠ some a := by
  intro hlast
  have hdrop := List.dropLast_append_getLast? a hlast
  rw [← hdrop, List.nodup_append] at hl
  exact hl.2.2 a ha a (by simp) rfl

/-! ### The helpers -/

/-- The first scan of `timer_set` takes the timer of the client out. -/
theorem unlinkClient_spec (h : Represents t T []) (client : NotifyClient) :
    ∃ t', t.unlinkClient client = some (t', (T.find client).getD null) ∧
      Represents t' { T with queue := T.without client } (T.find client).toList := by
  let f : Ptr → Bool := fun p => (T.timer p).client = client
  have hscan : t.scan (fun e => e.client = client) =
      some ((T.queue.takeWhile fun p => !f p).getLastD null,
        (T.queue.dropWhile fun p => !f p).headD null) :=
    scan_eq h fun p e _ hTp => by show _ = decide ((T.timer p).client = client); rw [← hTp]; rfl
  have hfind : T.find client = (T.queue.dropWhile fun p => !f p).head? :=
    find?_eq_head?_dropWhile f T.queue
  have hwithout : T.without client =
      (T.queue.takeWhile fun p => !f p) ++ (T.queue.dropWhile fun p => !f p).tail :=
    eraseP_eq_takeWhile_append f T.queue
  have hsplit := List.takeWhile_append_dropWhile (p := fun p => !f p) (l := T.queue)
  generalize T.queue.takeWhile (fun p => !f p) = pre at hscan hwithout hsplit
  generalize T.queue.dropWhile (fun p => !f p) = rest at hscan hfind hwithout hsplit
  cases rest with
  | nil =>
      -- no timer of the client: nothing changes
      simp only [List.append_nil, List.tail_nil] at hsplit hwithout
      refine ⟨t, ?_, ?_⟩
      · simp [Timers.unlinkClient, hscan, hfind]
      · rw [hfind, hwithout, hsplit]
        exact h
  | cons np post =>
      simp only [List.head?_cons, List.tail_cons] at hfind hwithout
      have hchain : Chain null t.link t.timerQ (pre ++ np :: post) := hsplit ▸ h.queue
      have hnodup : (pre ++ np :: post).Nodup := hchain.nodup
      have hmem : ∀ p, p ∈ T.queue ↔ p ∈ pre ∨ p = np ∨ p ∈ post := fun p => by
        rw [← hsplit]; simp
      obtain ⟨next, hnext, hpost⟩ :
          ∃ next, t.link np = some next ∧ Chain null t.link next post := by
        cases hchain.drop with
        | cons _ hnext hrest => exact ⟨_, hnext, hrest⟩
      have hnp : np ≠ null := hchain.ne_null (by simp)
      obtain ⟨t', ht', hq, hfree, hlast, hother, hheap⟩ := setNext_spec t next pre
        (fun p hp => hchain.ne_null (by simp [hp]))
        (fun p hp => h.heap_isSome_iff.mpr (.inl ((hmem p).mpr (.inl hp))))
      -- only the last link in front has changed
      have hsame : ∀ p, p ∉ pre → t'.link p = t.link p := fun p hp =>
        hother p fun hlast => hp (List.mem_of_getLast? hlast)
      rw [List.nodup_append] at hnodup
      obtain ⟨hpre, hrest, hdisj⟩ := hnodup
      have hqueue : Chain null t'.link t'.timerQ (pre ++ post) := by
        rw [hq]
        exact hchain.replaceTail (fun p hp => hother p (getLast?_ne_of_mem_dropLast hpre hp)) hlast
          (hpost.congr fun p hp => hsame p fun hpp => hdisj p hpp p (by simp [hp]) rfl)
      refine ⟨t', ?_, ⟨?_, ?_, ?_, ?_, ?_, ?_⟩⟩
      · simp only [Timers.unlinkClient, hscan, List.headD_cons, Option.bind_eq_bind,
          Option.bind_some, if_neg hnp, hnext, ht', hfind, Option.getD_some]
      · simpa [hwithout] using hqueue
      · show Chain null t'.link t'.freeTQEQ T.free
        rw [hfree]
        refine h.free.congr fun p hp => hsame p fun hpp => ?_
        exact h.disjoint ((hmem p).mpr (.inl hpp)) hp
      · show (T.without client).Disjoint T.free
        intro p hp hpf
        rw [hwithout] at hp
        exact h.disjoint ((hmem p).mpr (by simp at hp; tauto)) hpf
      · show (T.without client).Disjoint _
        rw [hwithout, hfind]
        intro p hp hpf
        simp only [Option.toList_some, List.mem_singleton] at hpf
        subst hpf
        rcases List.mem_append.mp hp with hp | hp
        · exact hdisj p hp p (by simp) rfl
        · exact (List.nodup_cons.mp hrest).1 hp
      · show T.free.Disjoint _
        rw [hfind]
        intro p hp hpf
        simp only [Option.toList_some, List.mem_singleton] at hpf
        exact h.disjoint ((hmem p).mpr (.inr (.inl hpf))) hp
      · intro p
        rw [hheap, h.heap]
        refine if_congr ?_ rfl rfl
        show _ ↔ p ∈ T.without client ∨ p ∈ T.free ∨ p ∈ (T.find client).toList
        rw [hwithout, hfind, hmem]
        simp
        tauto

/-- `tp->link = freeTQEQ; freeTQEQ = tp;` frees a held element. -/
theorem putFree_spec (h : Represents t T [p]) (hp : p ≠ null) :
    ∃ t', t.putFree p = some t' ∧ Represents t' { T with free := p :: T.free } [] := by
  obtain ⟨t', ht', hlink, hq, -, hheap⟩ := setLink_spec t t.freeTQEQ (p := p)
    (h.heap_isSome_iff.mpr (by simp))
  -- The element is in neither list, so their links are as they were.
  have hsame : ∀ q, q ≠ p → t'.link q = t.link q := fun q hqp => by
    rw [hlink, Function.update_of_ne hqp]
  have hqp : p ∉ T.queue := fun hmem => h.queue_held hmem (by simp)
  have hfp : p ∉ T.free := fun hmem => h.free_held hmem (by simp)
  refine ⟨{ t' with freeTQEQ := p }, by simp [Timers.putFree, ht'], ⟨?_, ?_, ?_, ?_, ?_, ?_⟩⟩
  · show Chain null t'.link t'.timerQ T.queue
    rw [hq]
    exact h.queue.congr fun q hmem => hsame q fun heq => hqp (heq ▸ hmem)
  · show Chain null t'.link p (p :: T.free)
    refine .cons hp (by rw [hlink, Function.update_self]) ?_
    exact h.free.congr fun q hmem => hsame q fun heq => hfp (heq ▸ hmem)
  · show T.queue.Disjoint (p :: T.free)
    exact List.disjoint_cons_right.mpr ⟨hqp, h.disjoint⟩
  · exact List.disjoint_nil_right _
  · exact List.disjoint_nil_right _
  · intro q
    show (t'.heap q).map TQE.timer = _
    rw [hheap, h.heap]
    refine if_congr ?_ rfl rfl
    simp
    tauto

/-- A change of what an element holds. -/
theorem modify_spec (h : Represents t T held) (hp : p ∈ T.queue ∨ p ∈ T.free ∨ p ∈ held)
    {f : TQE → TQE} {g : Timer → Timer} (hlink : ∀ e, (f e).link = e.link)
    (hf : ∀ e, (f e).timer = g e.timer) :
    ∃ t', t.modify p f = some t' ∧
      Represents t' { T with timer := Function.update T.timer p (g (T.timer p)) } held := by
  obtain ⟨e, he, hTp⟩ := h.exists_of_mem hp
  -- No link changes, so both chains are as they were.
  have hsame : (t.put p (f e)).link = t.link := by
    funext q
    rw [link_put, hlink]
    by_cases hq : q = p
    · subst hq
      simp [Timers.link, he]
    · rw [Function.update_of_ne hq]
  refine ⟨t.put p (f e), by simp [Timers.modify, he], ⟨?_, ?_, h.disjoint, h.queue_held,
    h.free_held, fun q => ?_⟩⟩
  · rw [hsame]
    exact h.queue
  · rw [hsame]
    exact h.free
  · by_cases hq : q = p
    · subst hq
      simp only [Timers.put, Function.update_self, Option.map_some, hf, hTp]
      rw [if_pos hp]
    · simp only [Timers.put, Function.update_of_ne hq, h.heap]

/-- An element is taken from the head of the free queue. -/
theorem takeFree_cons (h : Represents t T []) {free : List Ptr} (hfree : T.free = p :: free)
    (fresh : Ptr) :
    ∃ t', t.takeFree fresh = some (t', p) ∧ Represents t' { T with free := free } [p] := by
  have hchain := h.free
  rw [hfree] at hchain
  -- The chain of the free queue starts at the element, and its rest at the link of it.
  obtain ⟨next, hp, hhead, hnext, hrest⟩ :
      ∃ next, p ≠ null ∧ t.freeTQEQ = p ∧ t.link p = some next ∧
        Chain null t.link next free := by
    generalize t.freeTQEQ = a at hchain ⊢
    cases hchain with
    | cons hne hnext hrest => exact ⟨_, hne, rfl, hnext, hrest⟩
  have hnodup : (p :: free).Nodup := hchain.nodup
  have hdisj := h.disjoint
  rw [hfree, List.disjoint_cons_right] at hdisj
  refine ⟨{ t with freeTQEQ := next }, ?_, ⟨h.queue, hrest, hdisj.2, ?_, ?_, ?_⟩⟩
  · simp [Timers.takeFree, hhead, hp, hnext]
  · exact List.disjoint_singleton.mpr hdisj.1
  · exact List.disjoint_singleton.mpr (List.nodup_cons.mp hnodup).1
  · intro q
    show (t.heap q).map TQE.timer = _
    rw [h.heap]
    refine if_congr ?_ rfl rfl
    rw [hfree]
    simp
    tauto

/-- With nothing free, `malloc` gives an element. -/
theorem takeFree_nil (h : Represents t T []) (hfree : T.free = []) {fresh : Ptr}
    (hnull : fresh ≠ null) (hfresh : t.heap fresh = none) :
    ∃ t', t.takeFree fresh = some (t', fresh) ∧
      Represents t' { T with timer := Function.update T.timer fresh Timer.new } [fresh] := by
  have hchain := h.free
  rw [hfree] at hchain
  have hhead : t.freeTQEQ = null := by
    generalize t.freeTQEQ = a at hchain ⊢
    cases hchain
    rfl
  -- The new address is in neither list, so no link of a list changes.
  have hout : ¬(fresh ∈ T.queue ∨ fresh ∈ T.free ∨ fresh ∈ ([] : List Ptr)) := fun hmem => by
    have hsome := h.heap_isSome_iff.mpr hmem
    rw [hfresh] at hsome
    cases hsome
  have hsame : ∀ q, q ≠ fresh → ∀ e, (t.put fresh e).link q = t.link q := fun q hq e => by
    rw [link_put, Function.update_of_ne hq]
  let e : TQE := { link := null, time := ⟨0, 0⟩, interval := ⟨0, 0⟩, func := 0, client := 0 }
  refine ⟨{ t.put fresh e with freeTQEQ := null }, ?_, ⟨?_, ?_, ?_, ?_, ?_, ?_⟩⟩
  · have hlink : (t.put fresh e).link fresh = some null := by
      rw [link_put, Function.update_self]
    simp only [Timers.takeFree, hhead, if_true, hnull, hfresh, Option.isSome_none,
      Bool.false_eq_true, or_self, if_false, Option.bind_eq_bind, Option.bind_some]
    show ((t.put fresh e).link fresh).bind _ = _
    rw [hlink]
    rfl
  · exact h.queue.congr fun q hq => hsame q (fun heq => hout (.inl (heq ▸ hq))) e
  · show Chain null (t.put fresh e).link null T.free
    rw [hfree]
    exact .nil
  · exact h.disjoint
  · exact List.disjoint_singleton.mpr fun hmem => hout (.inl hmem)
  · exact List.disjoint_singleton.mpr fun hmem => hout (.inr (.inl hmem))
  · intro q
    show ((t.put fresh e).heap q).map TQE.timer = _
    by_cases hq : q = fresh
    · subst hq
      simp [Timers.put, TQE.timer, Timer.new, e]
    · simp [Timers.put, h.heap, hq]

/-- The second scan of `timer_set` puts a held element behind those that are not later. -/
theorem insertTimer_spec (h : Represents t T [p]) (hp : p ≠ null) :
    ∃ t', t.insertTimer p = some t' ∧
      Represents t' { T with queue := T.queue.orderedInsert (Table.Earlier T.timer) p } [] := by
  obtain ⟨new, hnew, hTnew⟩ := h.exists_of_mem (p := p) (by simp)
  let f : Ptr → Bool := fun q => Table.Earlier T.timer p q
  have hscan : t.scan (fun e => timerless new.time e.time) =
      some ((T.queue.takeWhile fun q => !f q).getLastD null,
        (T.queue.dropWhile fun q => !f q).headD null) :=
    scan_eq h fun q e _ hTq => by
      show _ = decide ((T.timer p).time < (T.timer q).time)
      rw [← hTq, ← hTnew, timerless_eq]
      rfl
  have hinsert : T.queue.orderedInsert (Table.Earlier T.timer) p =
      (T.queue.takeWhile fun q => !f q) ++ p :: T.queue.dropWhile fun q => !f q := by
    rw [List.orderedInsert_eq_take_drop]
    simp only [f, decide_not]
  have hsplit := List.takeWhile_append_dropWhile (p := fun q => !f q) (l := T.queue)
  generalize T.queue.takeWhile (fun q => !f q) = pre at hscan hinsert hsplit
  generalize T.queue.dropWhile (fun q => !f q) = post at hscan hinsert hsplit
  have hqp : p ∉ T.queue := fun hmem => h.queue_held hmem (by simp)
  have hfp : p ∉ T.free := fun hmem => h.free_held hmem (by simp)
  have hmem : ∀ q, q ∈ T.queue ↔ q ∈ pre ∨ q ∈ post := fun q => by rw [← hsplit]; simp
  have hchain : Chain null t.link t.timerQ (pre ++ post) := hsplit ▸ h.queue
  have hpost : Chain null t.link (post.headD null) post := by
    cases post with
    | nil => exact .nil
    | cons q post => exact hchain.drop
  obtain ⟨hpre, -, hdisj⟩ := List.nodup_append.mp hchain.nodup
  obtain ⟨t₁, ht₁, hq₁, hfree₁, hlast₁, hother₁, hheap₁⟩ := setNext_spec t p pre
    (fun q hq => hchain.ne_null (by simp [hq]))
    (fun q hq => h.heap_isSome_iff.mpr (.inl ((hmem q).mpr (.inl hq))))
  obtain ⟨t₂, ht₂, hlink₂, hq₂, hfree₂, hheap₂⟩ := setLink_spec t₁ (post.headD null) (p := p) (by
    rw [← Option.isSome_map (f := TQE.timer), hheap₁, Option.isSome_map, hnew]
    rfl)
  -- the last link in front and the link of `p` are all that has changed
  have hsame₁ : ∀ q, q ≠ p → t₂.link q = t₁.link q := fun q hqp => by
    rw [hlink₂, Function.update_of_ne hqp]
  have hsame : ∀ q, q ≠ p → q ∉ pre → t₂.link q = t.link q := fun q hqp hq => by
    rw [hsame₁ q hqp, hother₁ q fun hlast => hq (List.mem_of_getLast? hlast)]
  have hne : ∀ q, q ∈ pre ∨ q ∈ post → q ≠ p := fun q hq heq => hqp ((hmem p).mpr (heq ▸ hq))
  have htail : Chain null t₂.link p (p :: post) := by
    refine .cons hp (by rw [hlink₂, Function.update_self]) (hpost.congr fun q hq => ?_)
    exact hsame q (hne q (.inr hq)) fun hqpre => hdisj q hqpre q hq rfl
  refine ⟨t₂, ?_, ⟨?_, ?_, ?_, List.disjoint_nil_right _, List.disjoint_nil_right _, ?_⟩⟩
  · simp only [Timers.insertTimer, hnew, hscan, Option.bind_eq_bind, Option.bind_some, ht₁, ht₂]
  · show Chain null t₂.link t₂.timerQ (T.queue.orderedInsert _ p)
    rw [hinsert, hq₂, hq₁]
    refine hchain.replaceTail (fun q hq => ?_) (fun q hq => ?_) htail
    · rw [hsame₁ q (hne q (.inl (List.mem_of_mem_dropLast hq))),
        hother₁ q (getLast?_ne_of_mem_dropLast hpre hq)]
    · rw [hsame₁ q (hne q (.inl (List.mem_of_getLast? hq))), hlast₁ q hq]
  · show Chain null t₂.link t₂.freeTQEQ T.free
    rw [hfree₂, hfree₁]
    refine h.free.congr fun q hq => hsame q (fun heq => hfp (heq ▸ hq)) fun hqpre => ?_
    exact h.disjoint ((hmem q).mpr (.inl hqpre)) hq
  · show (T.queue.orderedInsert _ p).Disjoint T.free
    intro q hq hqf
    rcases List.mem_orderedInsert _ |>.mp hq with rfl | hq
    · exact hfp hqf
    · exact h.disjoint hq hqf
  · intro q
    rw [hheap₂, hheap₁, h.heap]
    refine if_congr ?_ rfl rfl
    simp only [List.mem_orderedInsert, List.mem_singleton, List.not_mem_nil]
    tauto

end MyTestFiles.Proofs.Multimer
