import MyTestFiles.CircBuffer.Buffer

/-!
# `MyTestFiles.Proofs.CircBuffer.Refinement`: the circular buffer is a bounded queue

`Represents` relates a header to a queue: the cells from `base` up to `curr` are the items
and the count is their number. Each operation on a represented queue gives the result and
the events of the queue, and a header that represents the new queue. `cbuf_simulates` puts
the operations together, and `represents_of_cbufCreate` starts a run.

`refinesFifo_iff` is the refinement over every run from `cbufCreate`.

* Storage that the caller gives is cleared first, so the mode of the run is the one that was asked
  for (`refinesFifo_iff_given`).
* A header that `cbuf_create` allocates itself has whatever bytes `malloc` left in it, and its
  flags are combined with those bytes. The run is a queue in the mode that was asked for unless a
  stale overwrite bit stands there (`not_refinesFifo_stale`).

The events of a run are part of the refinement. A step of the queue says which callbacks run and
on which items, in order, and the operation of the source does the same.
-/

set_option autoImplicit false

namespace MyTestFiles.Proofs.CircBuffer

open MyTestFiles.Lib
open MyTestFiles.CircBuffer

section Represents
variable {capacity : Nat} {overwrite cleanup : Bool} {chdr : CbufHeader}
  {q : Fifo Data capacity}

/-- A header whose cells from `base` up to `curr` are the items of a queue. -/
structure Represents (overwrite cleanup : Bool) (chdr : CbufHeader) (q : Fifo Data capacity) :
    Prop where
  valid : cbValid chdr.flags = true
  overwrite_eq : cbOverwrite chdr.flags = overwrite
  cleanup_eq : chdr.cleanupFunc = cleanup
  capacity_pos : 0 < capacity
  max_eq : chdr.max = capacity + 1
  length_eq : chdr.buffer.length = capacity + 1
  count_eq : chdr.count = q.items.length
  ring : IsRing chdr.buffer chdr.base chdr.curr q.items

namespace Represents

/-- The header is empty just where the queue is. -/
theorem cbEmpty_eq (h : Represents overwrite cleanup chdr q) :
    cbEmpty chdr = q.items.isEmpty := by
  rw [cbEmpty, h.count_eq]
  cases q.items <;> rfl

/-- The header is full just where the queue is, with one cell of the array never in use. -/
theorem cbFull_eq (h : Represents overwrite cleanup chdr q) : cbFull chdr = q.full := by
  rw [cbFull, h.count_eq, h.max_eq, Nat.add_sub_cancel, Fifo.full]
  rfl

/-- The ring always has its spare cell. -/
theorem spare (h : Represents overwrite cleanup chdr q) :
    q.items.length < chdr.buffer.length := by
  have := q.bounded
  rw [h.length_eq]
  omega

/-- `max` counts the cells of the array. -/
theorem max_eq_length (h : Represents overwrite cleanup chdr q) :
    chdr.max = chdr.buffer.length := by
  rw [h.max_eq, h.length_eq]

/-- A store at `curr` is inside the array. -/
theorem cbSetData_curr (h : Represents overwrite cleanup chdr q) (data : Data) :
    cbSetData chdr.buffer chdr.curr data = some (chdr.buffer.set chdr.curr data) := by
  simp [cbSetData, h.ring.curr_lt]

/-- The ring after the store and the move of `curr`. -/
theorem ring_push (h : Represents overwrite cleanup chdr q) (data : Data) :
    IsRing (chdr.buffer.set chdr.curr data) chdr.base (nextCell chdr.max chdr.curr)
      (q.items ++ [data]) := by
  rw [h.max_eq_length]
  exact h.ring.push h.spare data

/-- After the store, `curr` meets `base` just when the queue was full. -/
theorem nextCell_curr_eq_base_iff (h : Represents overwrite cleanup chdr q) (data : Data) :
    nextCell chdr.max chdr.curr = chdr.base ↔ q.full = true := by
  rw [eq_comm, (h.ring_push data).base_eq_curr_iff]
  simp [h.length_eq, Fifo.full]

/-! ### Enqueue -/

/-- An item that has room goes behind the others. -/
theorem enqueue_of_not_full (h : Represents overwrite cleanup chdr q) (hfull : q.full = false)
    (data : Data) :
    ∃ chdr', cbufEnqueueDefault chdr data = some (chdr', true, []) ∧
      Represents overwrite cleanup chdr' (q.enqueue overwrite data) := by
  -- One cell is always unused, so the pointers do not meet here.
  have hne : nextCell chdr.max chdr.curr ≠ chdr.base := by
    rw [Ne, h.nextCell_curr_eq_base_iff data, hfull]
    simp
  refine ⟨{ chdr with
    buffer := chdr.buffer.set chdr.curr data
    count := chdr.count + 1
    curr := nextCell chdr.max chdr.curr }, ?_, ?_⟩
  · simp [cbufEnqueueDefault, h.valid, h.cbFull_eq, hfull, h.cbSetData_curr, hne]
  · exact
      { valid := h.valid
        overwrite_eq := h.overwrite_eq
        cleanup_eq := h.cleanup_eq
        capacity_pos := h.capacity_pos
        max_eq := h.max_eq
        length_eq := by simpa using h.length_eq
        count_eq := by simp [Fifo.items_enqueue_of_not_full _ hfull, h.count_eq]
        ring := by
          rw [Fifo.items_enqueue_of_not_full _ hfull]
          exact h.ring_push data }

/-- Without the overwrite mode an item that has no room is dropped, and the caller is told TRUE
all the same. -/
theorem enqueue_of_drop (h : Represents false cleanup chdr q) (hfull : q.full = true)
    (data : Data) :
    cbufEnqueueDefault chdr data = some (chdr, true, []) := by
  simp [cbufEnqueueDefault, h.valid, h.cbFull_eq, hfull, h.overwrite_eq]

/-- The overwriting enqueue fills the spare cell and gives up the cell at `base`. -/
theorem enqueue_of_overwrite (h : Represents true cleanup chdr q) (hfull : q.full = true)
    (data : Data) :
    ∃ chdr', cbufEnqueueDefault chdr data = some (chdr', true,
        if cleanup then ((q.items ++ [data]).take 1).map Event.cleanup else []) ∧
      Represents true cleanup chdr' (q.enqueue true data) := by
  have heq : nextCell chdr.max chdr.curr = chdr.base :=
    (h.nextCell_curr_eq_base_iff data).mpr hfull
  have hlen : q.items.length = capacity := by simpa [Fifo.full] using hfull
  have hring := h.ring_push data
  -- the ring with the new item, and then without its oldest one
  obtain ⟨x, rest, hitems⟩ : ∃ x rest, q.items ++ [data] = x :: rest :=
    List.exists_cons_of_ne_nil (by simp)
  rw [hitems] at hring
  obtain ⟨hget, hpop⟩ := hring.pop
  have hnew : (q.enqueue true data).items = rest := by
    rw [Fifo.items_enqueue_of_full hfull, hitems, List.tail_cons]
  have hrest : rest.length = capacity := by
    have := congrArg List.length hitems
    simp only [List.length_append, List.length_cons, List.length_nil] at this
    omega
  refine ⟨{ chdr with
    buffer := chdr.buffer.set chdr.curr data
    count := chdr.count
    curr := nextCell chdr.max chdr.curr
    base := nextCell chdr.max chdr.base }, ?_, ?_⟩
  · cases hc : cleanup with
    | false =>
        simp [cbufEnqueueDefault, h.valid, h.cbFull_eq, hfull, h.overwrite_eq, h.cbSetData_curr,
          heq, h.cleanup_eq, hc]
    | true =>
        simp [cbufEnqueueDefault, h.valid, h.cbFull_eq, hfull, h.overwrite_eq, h.cbSetData_curr,
          heq, h.cleanup_eq, hc, cbGetData, hget, hitems]
  · exact
      { valid := h.valid
        overwrite_eq := h.overwrite_eq
        cleanup_eq := h.cleanup_eq
        capacity_pos := h.capacity_pos
        max_eq := h.max_eq
        length_eq := by simpa using h.length_eq
        count_eq := by
          rw [hnew, hrest]
          exact h.count_eq.trans hlen
        ring := by
          rw [hnew]
          simpa [h.max_eq_length] using hpop }

/-! ### Dequeue and peek -/

/-- The oldest item is answered and leaves the queue. -/
theorem dequeue (h : Represents overwrite cleanup chdr q) :
    ∃ chdr', cbufDequeueDefault chdr = some (chdr', oldest q, []) ∧
      Represents overwrite cleanup chdr' q.dequeue := by
  cases hitems : q.items with
  | nil =>
      have hempty : cbEmpty chdr = true := by rw [h.cbEmpty_eq, hitems]; rfl
      refine ⟨chdr, by simp [cbufDequeueDefault, h.valid, hempty, oldest, hitems], ?_⟩
      have hsame : q.dequeue.items = q.items := by rw [Fifo.items_dequeue, hitems]; rfl
      exact { h with
        count_eq := by rw [hsame]; exact h.count_eq
        ring := by rw [hsame]; exact h.ring }
  | cons x rest =>
      have hempty : cbEmpty chdr = false := by rw [h.cbEmpty_eq, hitems]; rfl
      have hring := h.ring
      rw [hitems] at hring
      obtain ⟨hget, hpop⟩ := hring.pop
      have hcount : chdr.count - 1 = rest.length := by rw [h.count_eq, hitems]; simp
      -- `base` meets `curr` only when the count is zero, so the repair is never reached
      have hsane : ¬ (nextCell chdr.max chdr.base = chdr.curr ∧ chdr.count - 1 ≠ 0) := by
        rintro ⟨hmeet, hne⟩
        rw [h.max_eq_length] at hmeet
        rcases hpop.base_eq_curr_iff.mp hmeet with hnil | hturn
        · simp [hcount, hnil] at hne
        · have := h.spare
          rw [hitems, List.length_cons] at this
          omega
      have hnew : q.dequeue.items = rest := by rw [Fifo.items_dequeue, hitems, List.tail_cons]
      refine ⟨{ chdr with count := chdr.count - 1, base := nextCell chdr.max chdr.base }, ?_, ?_⟩
      · simp [cbufDequeueDefault, h.valid, hempty, cbGetData, hget, hsane, oldest, hitems]
      · exact
          { valid := h.valid
            overwrite_eq := h.overwrite_eq
            cleanup_eq := h.cleanup_eq
            capacity_pos := h.capacity_pos
            max_eq := h.max_eq
            length_eq := h.length_eq
            count_eq := by rw [hnew]; exact hcount
            ring := by
              rw [hnew]
              simpa [h.max_eq_length] using hpop }

/-- The oldest item is answered and stays. -/
theorem peekqueue (h : Represents overwrite cleanup chdr q) :
    cbufPeekqueueDefault chdr = some (chdr, oldest q, []) := by
  cases hitems : q.items with
  | nil =>
      have hempty : cbEmpty chdr = true := by rw [h.cbEmpty_eq, hitems]; rfl
      simp [cbufPeekqueueDefault, h.valid, hempty, oldest, hitems]
  | cons x rest =>
      have hempty : cbEmpty chdr = false := by rw [h.cbEmpty_eq, hitems]; rfl
      have hring := h.ring
      rw [hitems] at hring
      simp [cbufPeekqueueDefault, h.valid, hempty, cbGetData, hring.pop.1, oldest, hitems]

/-! ### Reset and lookup -/

/-- A header at rest represents the empty queue. -/
theorem reset_header (h : Represents overwrite cleanup chdr q) :
    Represents overwrite cleanup { chdr with base := 0, curr := 0, count := 0 }
      (Fifo.empty : Fifo Data capacity) where
  valid := h.valid
  overwrite_eq := h.overwrite_eq
  cleanup_eq := h.cleanup_eq
  capacity_pos := h.capacity_pos
  max_eq := h.max_eq
  length_eq := h.length_eq
  count_eq := rfl
  ring := IsRing.nil h.ring.size_pos

/-- The walk of `runner`: the items before it are done, the items from it on are left. -/
def Walk (chdr : CbufHeader) (items : List Data) (event : Data → Event)
    (s : Nat × List Event) (done rest : List Data) : Prop :=
  items = done ++ rest ∧ s.2 = done.map event ∧ IsRing chdr.buffer s.1 chdr.curr rest

/-- The loop stops just when nothing is left. -/
theorem Walk.runner_eq_iff {items done rest : List Data} {event : Data → Event}
    {s : Nat × List Event} (hw : Walk chdr items event s done rest)
    (hspare : items.length < chdr.buffer.length) : s.1 = chdr.curr ↔ rest = [] := by
  rw [hw.2.2.base_eq_curr_iff]
  have hlt : rest.length < chdr.buffer.length := by
    have := congrArg List.length hw.1
    rw [List.length_append] at this
    omega
  constructor
  · rintro (hnil | hturn)
    · exact hnil
    · omega
  · exact Or.inl

/-- One move of `runner`. -/
theorem Walk.next {items done rest : List Data} {x : Data} {event : Data → Event}
    {s : Nat × List Event} (hw : Walk chdr items event s done (x :: rest))
    (hmax : chdr.max = chdr.buffer.length) :
    cbGetData chdr.buffer s.1 = some x ∧
      Walk chdr items event (nextCell chdr.max s.1, s.2 ++ [event x]) (done ++ [x]) rest := by
  obtain ⟨hitems, hevents, hring⟩ := hw
  obtain ⟨hget, hpop⟩ := hring.pop
  refine ⟨hget, by simpa using hitems, by simp [hevents], ?_⟩
  rw [hmax]
  exact hpop

/-- A pass of the cleanup loop calls the callback on one item. The items that are left bound the
passes to come. -/
theorem resetPass_ok (h : Represents overwrite cleanup chdr q) (k : Nat) (s : Nat × List Event)
    (hs : ∃ done rest, Walk chdr q.items Event.cleanup s done rest ∧ rest.length = k) :
    PassOk (resetPass chdr)
      (fun k s => ∃ done rest, Walk chdr q.items Event.cleanup s done rest ∧ rest.length = k)
      (fun events => events = q.items.map Event.cleanup) k s := by
  obtain ⟨done, rest, hw, hk⟩ := hs
  have hstop := hw.runner_eq_iff h.spare
  cases rest with
  | nil =>
      refine Or.inr ⟨s.2, ?_, ?_⟩
      · simp [resetPass, hstop.mpr rfl]
      · rw [hw.2.1, hw.1, List.append_nil]
  | cons x rest =>
      have hne : s.1 ≠ chdr.curr := fun heq => by simpa using hstop.mp heq
      obtain ⟨hget, hnext⟩ := hw.next h.max_eq_length
      refine Or.inl ⟨(nextCell chdr.max s.1, s.2 ++ [.cleanup x]), rest.length, ?_,
        ⟨_, _, hnext, rfl⟩, ?_⟩
      · simp [resetPass, hne, hget]
      · rw [← hk, List.length_cons]
        exact Nat.lt_succ_self _

/-- A reset empties the queue, and cleans up every item from the oldest on where cleanup was asked
for. -/
theorem reset (h : Represents overwrite cleanup chdr q) {fuel : Nat} (hfuel : capacity < fuel) :
    ∃ chdr', cbufResetDefault fuel chdr = some (chdr', true,
        if cleanup then q.items.map Event.cleanup else []) ∧
      Represents overwrite cleanup chdr' (Fifo.empty : Fifo Data capacity) := by
  refine ⟨{ chdr with base := 0, curr := 0, count := 0 }, ?_, h.reset_header⟩
  cases hc : cleanup with
  | false => simp [cbufResetDefault, h.valid, h.cleanup_eq, hc]
  | true =>
      cases hitems : q.items with
      | nil =>
          have hempty : cbEmpty chdr = true := by rw [h.cbEmpty_eq, hitems]; rfl
          simp [cbufResetDefault, h.valid, hempty]
      | cons x rest =>
          have hempty : cbEmpty chdr = false := by rw [h.cbEmpty_eq, hitems]; rfl
          have hstart : Walk chdr q.items Event.cleanup (chdr.base, []) [] q.items :=
            ⟨rfl, rfl, h.ring⟩
          obtain ⟨events, hloop, hevents⟩ :=
            loop_rule _ (resetPass_ok h) ⟨_, _, hstart, rfl⟩ (q.bounded.trans_lt hfuel)
          rw [← hitems, ← hevents]
          simp [cbufResetDefault, h.valid, hempty, h.cleanup_eq, hc, hloop]

/-- A lookup that has examined some items without a match and has `k` left. -/
def Unmatched (chdr : CbufHeader) (items : List Data) (data : Data) (func : Data → Data → Int)
    (k : Nat) (s : Nat × List Event) : Prop :=
  ∃ done rest, Walk chdr items (Event.lookup · data) s done rest ∧
    (∀ x ∈ done, func x data ≠ 0) ∧ rest.length = k

/-- A pass of the lookup loop compares one item, and ends the loop at the first that matches. -/
theorem lookupPass_ok (h : Represents overwrite cleanup chdr q) (data : Data)
    (func : Data → Data → Int) (k : Nat) (s : Nat × List Event)
    (hs : Unmatched chdr q.items data func k s) :
    PassOk (lookupPass chdr data func) (Unmatched chdr q.items data func)
      (fun r => r.1 = (q.items.find? fun x => func x data = 0).getD null ∧
        r.2 = (examined func data q.items).map fun x => Event.lookup x data)
      k s := by
  obtain ⟨done, rest, hw, hmiss, hk⟩ := hs
  have hstop := hw.runner_eq_iff h.spare
  -- the items that were passed do not match, so that the rest decides
  have hfind : (q.items.find? fun x => func x data = 0) = rest.find? fun x => func x data = 0 := by
    rw [hw.1, List.find?_append, List.find?_eq_none.mpr (by simpa using hmiss), Option.none_or]
  have hexamined : examined func data q.items = done ++ examined func data rest := by
    rw [hw.1]
    clear hw hstop hfind
    induction done with
    | nil => rfl
    | cons y done ih =>
        have hy : func y data ≠ 0 := hmiss y (by simp)
        simp [examined, hy, ih fun x hx => hmiss x (by simp [hx])]
  cases rest with
  | nil =>
      refine Or.inr ⟨(null, s.2), ?_, ?_, ?_⟩
      · simp [lookupPass, hstop.mpr rfl]
      · simp [hfind]
      · simp [hexamined, examined, hw.2.1]
  | cons x rest =>
      have hne : s.1 ≠ chdr.curr := fun heq => by simpa using hstop.mp heq
      obtain ⟨hget, hnext⟩ := hw.next h.max_eq_length
      by_cases hx : func x data = 0
      · refine Or.inr ⟨(x, s.2 ++ [.lookup x data]), ?_, ?_, ?_⟩
        · simp [lookupPass, hne, hget, hx]
        · simp [hfind, hx]
        · simp [hexamined, examined, hx, hw.2.1]
      · refine Or.inl ⟨(nextCell chdr.max s.1, s.2 ++ [.lookup x data]), rest.length, ?_,
          ⟨_, _, hnext, ?_, rfl⟩, ?_⟩
        · simp [lookupPass, hne, hget, hx]
        · intro y hy
          rcases List.mem_append.mp hy with hy | hy
          · exact hmiss y hy
          · rw [List.mem_singleton.mp hy]
            exact hx
        · rw [← hk, List.length_cons]
          exact Nat.lt_succ_self _

/-- A lookup answers the oldest item that matches, and examines those up to it and no others. -/
theorem lookup (h : Represents overwrite cleanup chdr q) {fuel : Nat} (hfuel : capacity < fuel)
    (data : Data) (func : Data → Data → Int) :
    cbufLookupDefault fuel chdr data func = some (chdr,
      (q.items.find? fun x => func x data = 0).getD null,
      (examined func data q.items).map fun x => Event.lookup x data) := by
  cases hitems : q.items with
  | nil =>
      have hempty : cbEmpty chdr = true := by rw [h.cbEmpty_eq, hitems]; rfl
      simp [cbufLookupDefault, h.valid, hempty, examined]
  | cons x rest =>
      have hempty : cbEmpty chdr = false := by rw [h.cbEmpty_eq, hitems]; rfl
      have hstart : Walk chdr q.items (Event.lookup · data) (chdr.base, []) [] q.items :=
        ⟨rfl, rfl, h.ring⟩
      obtain ⟨⟨cbdata, events⟩, hloop, hdata, hevents⟩ :=
        loop_rule _ (lookupPass_ok h data func) ⟨_, _, hstart, by simp, rfl⟩
          (q.bounded.trans_lt hfuel)
      rw [← hitems]
      simp only at hdata hevents
      simp [cbufLookupDefault, h.valid, hempty, hloop, hdata, hevents]

end Represents
end Represents

/-! ### Runs -/

section Runs
variable {capacity : Nat} {overwrite cleanup : Bool}

/-- Every operation on a represented queue is the operation on the queue. -/
theorem cbuf_simulates {fuel : Nat} (hfuel : capacity < fuel) :
    Simulates (cbufStep fuel) (fifoStep overwrite cleanup)
      (@Represents capacity overwrite cleanup) := by
  intro chdr q h op q' o hstep
  cases op with
  | enqueue data =>
      cases hstep
      cases hfull : q.full with
      | false =>
          obtain ⟨chdr', hrun, hrep⟩ := h.enqueue_of_not_full hfull data
          exact ⟨chdr', by simp [cbufStep, hrun, Outcome.label], hrep⟩
      | true =>
          cases overwrite with
          | false =>
              refine ⟨chdr, by simp [cbufStep, h.enqueue_of_drop hfull data, Outcome.label], ?_⟩
              rw [Fifo.enqueue_of_full hfull]
              exact h
          | true =>
              obtain ⟨chdr', hrun, hrep⟩ := h.enqueue_of_overwrite hfull data
              exact ⟨chdr', by simp [cbufStep, hrun, Outcome.label], hrep⟩
  | dequeue =>
      cases hstep
      obtain ⟨chdr', hrun, hrep⟩ := h.dequeue
      exact ⟨chdr', by simp [cbufStep, hrun, Outcome.label], hrep⟩
  | peekqueue =>
      cases hstep
      exact ⟨chdr, by simp [cbufStep, h.peekqueue, Outcome.label], h⟩
  | reset =>
      cases hstep
      obtain ⟨chdr', hrun, hrep⟩ := h.reset hfuel
      exact ⟨chdr', by simp [cbufStep, hrun, Outcome.label], hrep⟩
  | lookup data func =>
      cases hstep
      exact ⟨chdr, by simp [cbufStep, h.lookup hfuel, Outcome.label], h⟩

/-- The queue has a step for every operation. -/
theorem fifoStep_total (capacity : Nat) (overwrite cleanup : Bool) (q : Fifo Data capacity)
    (op : CbufOp) : ∃ q' o, fifoStep overwrite cleanup q op = some (q', o) := by
  cases op <;> exact ⟨_, _, rfl⟩

/-- The queue never reports a debug message. -/
theorem fifoStep_no_buginf {q q' : Fifo Data capacity} {op : CbufOp} {o : CbufRet × List Event}
    (h : fifoStep overwrite cleanup q op = some (q', o)) (text : String) :
    Event.buginf text ∉ o.2 := by
  cases op with
  | enqueue data =>
      cases h
      dsimp only
      split
      · simp only [List.mem_map, reduceCtorEq, and_false, exists_false, not_false_eq_true]
      · simp
  | reset =>
      cases h
      dsimp only
      split <;> simp
  | dequeue | peekqueue | lookup data func =>
      cases h
      simp

/-- Items that are not `NULL` stay so. -/
theorem null_not_mem_fifoStep {q q' : Fifo Data capacity} {op : CbufOp}
    {o : CbufRet × List Event} (h : fifoStep overwrite cleanup q op = some (q', o))
    (hq : null ∉ q.items) (hop : ∀ data, op = .enqueue data → data ≠ null) :
    null ∉ q'.items := by
  cases op with
  | enqueue data =>
      cases h
      intro hmem
      rcases Fifo.mem_enqueue hmem with hold | hnew
      · exact hq hold
      · exact hop data rfl hnew.symm
  | dequeue =>
      cases h
      exact fun hmem => hq (List.mem_of_mem_tail hmem)
  | reset =>
      cases h
      simp
  | peekqueue | lookup data func =>
      cases h
      exact hq

/-- The oldest item tells an empty queue from the others. -/
theorem oldest_eq_null_iff {q : Fifo Data capacity} (hq : null ∉ q.items) :
    oldest q = null ↔ q.items = [] := by
  cases hitems : q.items with
  | nil => simp [oldest, hitems]
  | cons x rest =>
      have hx : x ≠ null := by
        rintro rfl
        exact hq (by simp [hitems])
      simp [oldest, hitems, hx]

end Runs

/-! ### Creation -/

/-- The overwrite mode is the lowest bit of the flags. -/
theorem cbOverwrite_eq_getLsbD (flags : BitVec 16) : cbOverwrite flags = flags.getLsbD 0 := by
  have hone : flags &&& cbFlagsOverwrite = (BitVec.ofBool (flags.getLsbD 0)).setWidth 16 :=
    BitVec.and_one_eq_setWidth_ofBool_getLsbD
  rw [cbOverwrite, hone]
  cases flags.getLsbD 0 <;> rfl

/-- A header with the valid bit set is valid. -/
theorem cbValid_or_cbFlagsValid (flags : BitVec 16) : cbValid (flags ||| cbFlagsValid) = true := by
  have hbit : ((flags ||| cbFlagsValid) &&& cbFlagsValid).getLsbD 15 = true := by
    simp [cbFlagsValid]
  rw [cbValid, bne_iff_ne]
  intro hzero
  rw [hzero] at hbit
  simp at hbit

section Create
variable {given : Option CbufHeader} {max : BitVec 16} {name : Option String}
  {flags : BitVec 16} {clfunc : Bool} {malloc : Malloc} {chdr : CbufHeader}

/-- A created buffer overwrites when the caller asks for it. The flags of a header from
`malloc` are not cleared, so its old contents can ask for it too. -/
theorem cbOverwrite_of_cbufCreate
    (h : cbufCreate given max name flags clfunc malloc = some chdr) :
    cbOverwrite chdr.flags
      = (cbOverwrite flags || given.isNone && malloc.header.any (cbOverwrite ·.flags)) := by
  simp only [cbufCreate] at h
  split at h
  · cases h
  · simp only [Option.bind_eq_bind, Option.bind_eq_some_iff] at h
    obtain ⟨storage, hstorage, cells, -, hchdr⟩ := h
    cases hchdr
    cases given with
    | none =>
        simp only [cbufStorage, Option.map_eq_some_iff] at hstorage
        obtain ⟨mem, hmem, rfl⟩ := hstorage
        simp [cbOverwrite_eq_getLsbD, hmem, cbFlagsMalloc, cbFlagsUser, cbFlagsValid,
          Bool.or_comm]
    | some mem =>
        cases hstorage
        simp [cbOverwrite_eq_getLsbD, zeroHeader, cbFlagsUser, cbFlagsValid]

/-- A created buffer represents the empty queue of `max` items. -/
theorem represents_of_cbufCreate
    (h : cbufCreate given max name flags clfunc malloc = some chdr) :
    Represents (cbOverwrite chdr.flags) clfunc chdr (Fifo.empty : Fifo Data max.toNat) := by
  simp only [cbufCreate] at h
  split at h
  · cases h
  · rename_i hmax
    have hpos : 0 < max.toNat := by
      rw [Nat.pos_iff_ne_zero]
      exact fun hzero => hmax (BitVec.eq_of_toNat_eq hzero)
    simp only [Option.bind_eq_bind, Option.bind_eq_some_iff] at h
    -- Only the flags come from the header that was there. All else is stored.
    obtain ⟨mem, -, cells, -, hchdr⟩ := h
    cases hchdr
    exact
      { valid := cbValid_or_cbFlagsValid _
        overwrite_eq := rfl
        cleanup_eq := rfl
        capacity_pos := hpos
        max_eq := rfl
        length_eq := cells.toList_length
        count_eq := rfl
        ring := IsRing.nil (by simp) }

/-- What it means that a buffer of `capacity` entries is a bounded queue, where a full queue
drops its oldest item or not (`overwrite`). Every run of operations on data that is not `NULL`
succeeds, with the results and events of the queue, and ends with the items of the queue from
`base` up to `curr`:

- `NULL` is the oldest item of an empty queue and of no other;
- the count is the distance of the two indices, and at most `capacity`;
- both indices are inside the array;
- no debug message is reached, in particular not the one about a count that is not zero.

The loops of reset and lookup run on any fuel over `capacity`. -/
def RefinesFifo (chdr : CbufHeader) (capacity : Nat) (overwrite cleanup : Bool) : Prop :=
  ∀ ops : List CbufOp, (∀ data, CbufOp.enqueue data ∈ ops → data ≠ null) →
    ∀ fuel, capacity < fuel →
      ∃ chdr' outs, ∃ q : Fifo Data capacity,
        run (cbufStep fuel) chdr ops = some (chdr', outs) ∧
        run (fifoStep overwrite cleanup) Fifo.empty ops = some (q, outs) ∧
        window chdr'.buffer chdr'.base chdr'.count = q.items ∧
        (oldest q = null ↔ q.items = []) ∧
        (chdr'.count : Int) = ((chdr'.curr : Int) - chdr'.base) % (capacity + 1) ∧
        chdr'.count ≤ capacity ∧
        chdr'.base < chdr'.buffer.length ∧ chdr'.curr < chdr'.buffer.length ∧
        ∀ o ∈ outs, ∀ text, Event.buginf text ∉ o.2

/-- A created buffer is a bounded queue of `max` items in the mode of its own flags. -/
theorem refinesFifo_created
    (hcreate : cbufCreate given max name flags clfunc malloc = some chdr) :
    RefinesFifo chdr max.toNat (cbOverwrite chdr.flags) clfunc := by
  intro ops hdata fuel hfuel
  obtain ⟨q, outs, hq⟩ := exists_run_of_total
    (fifoStep_total max.toNat (cbOverwrite chdr.flags) clfunc) Fifo.empty ops
  obtain ⟨chdr', hrun, hrep⟩ :=
    (cbuf_simulates hfuel).run (represents_of_cbufCreate hcreate) hq
  -- no null item is ever enqueued, so that `null` marks the empty queue
  have hnull : null ∉ q.items :=
    run_invariant (fun q => null ∉ q.items) (fun op => ∀ data, op = .enqueue data → data ≠ null)
      (fun s op s' o hs hop hstep => null_not_mem_fifoStep hstep hs hop) (by simp)
      (fun op hop data heq => hdata data (by rw [← heq]; exact hop)) hq
  have hquiet : ∀ o ∈ outs, ∀ text, Event.buginf text ∉ o.2 :=
    run_outputs (fun s op s' o hstep => fifoStep_no_buginf hstep) hq
  refine ⟨chdr', outs, q, hrun, hq, ?_, oldest_eq_null_iff hnull, ?_, ?_, hrep.ring.base_lt,
    hrep.ring.curr_lt, hquiet⟩
  · rw [hrep.count_eq, hrep.ring.holds]
  · rw [hrep.count_eq, hrep.ring.length_eq hrep.spare, hrep.length_eq]
    push_cast
    rfl
  · rw [hrep.count_eq]
    exact q.bounded

/-- The operations that tell the two modes of a buffer apart: `capacity` items of one kind, and
then one of another kind. -/
def fillAndOneMore (capacity : Nat) : List CbufOp :=
  List.replicate capacity (.enqueue 1) ++ [.enqueue 2]

/-- Items that fit are appended, in either mode. -/
theorem run_fifoStep_replicate {capacity : Nat} (overwrite cleanup : Bool) {n : Nat}
    {q : Fifo Data capacity} (hfits : q.items.length + n ≤ capacity) (data : Data) :
    ∃ q' outs, run (fifoStep overwrite cleanup) q (List.replicate n (.enqueue data))
        = some (q', outs) ∧ q'.items = q.items ++ List.replicate n data := by
  induction n generalizing q with
  | zero => exact ⟨q, [], rfl, by simp⟩
  | succ n ih =>
      have hroom : q.full = false := by
        simp only [Fifo.full, decide_eq_false_iff_not]
        omega
      have hitems := Fifo.items_enqueue_of_not_full overwrite hroom data
      have hlength : (q.enqueue overwrite data).items.length + n ≤ capacity := by
        rw [hitems, List.length_append, List.length_singleton]
        omega
      obtain ⟨q', outs, hrun, hq'⟩ := ih hlength
      refine ⟨q', _, run_cons_of_step rfl hrun, ?_⟩
      rw [hq', hitems, List.append_assoc, List.singleton_append, ← List.replicate_succ]

/-- The queue that overwrites holds the last item, and the one that does not holds only items
of the first kind. -/
theorem run_fifoStep_fillAndOneMore {capacity : Nat} (overwrite cleanup : Bool)
    (hpos : 0 < capacity) :
    ∃ (q : Fifo Data capacity) (outs : List (CbufRet × List Event)),
      run (fifoStep overwrite cleanup) Fifo.empty (fillAndOneMore capacity) = some (q, outs) ∧
      (2 ∈ q.items ↔ overwrite = true) := by
  obtain ⟨q, outs, hrun, hitems⟩ := run_fifoStep_replicate overwrite cleanup
    (q := (Fifo.empty : Fifo Data capacity)) (n := capacity) (by simp) 1
  have hfull : q.full = true := by simp [Fifo.full, hitems]
  refine ⟨_, _, run_append hrun (run_cons_of_step rfl rfl), ?_⟩
  cases overwrite with
  | false =>
      rw [Fifo.enqueue_of_full hfull]
      simp [hitems]
  | true =>
      obtain ⟨n, rfl⟩ : ∃ n, capacity = n + 1 := ⟨capacity - 1, by omega⟩
      rw [Fifo.items_enqueue_of_full hfull]
      simp [hitems, List.replicate_succ]

/-- A buffer cannot be a queue in both modes. -/
theorem overwrite_eq_of_refinesFifo {capacity : Nat} {overwrite overwrite' cleanup : Bool}
    (hpos : 0 < capacity) (h : RefinesFifo chdr capacity overwrite cleanup)
    (h' : RefinesFifo chdr capacity overwrite' cleanup) : overwrite = overwrite' := by
  have hdata : ∀ data, CbufOp.enqueue data ∈ fillAndOneMore capacity → data ≠ null := by
    intro data hmem
    simp only [fillAndOneMore, List.mem_append, List.mem_replicate, List.mem_singleton,
      CbufOp.enqueue.injEq] at hmem
    rcases hmem with ⟨-, rfl⟩ | rfl
    · decide
    · decide
  obtain ⟨chdr₁, _, q₁, hrun₁, hq₁, hitems₁, -⟩ := h _ hdata (capacity + 1) (Nat.lt_succ_self _)
  obtain ⟨chdr₂, _, q₂, hrun₂, hq₂, hitems₂, -⟩ := h' _ hdata (capacity + 1) (Nat.lt_succ_self _)
  obtain ⟨r₁, _, hr₁, hmem₁⟩ := run_fifoStep_fillAndOneMore overwrite cleanup hpos
  obtain ⟨r₂, _, hr₂, hmem₂⟩ := run_fifoStep_fillAndOneMore overwrite' cleanup hpos
  -- one run of the buffer, so one list of items
  rw [hrun₁] at hrun₂
  rw [hq₁] at hr₁
  rw [hq₂] at hr₂
  cases hrun₂
  cases hr₁
  cases hr₂
  rw [hitems₁] at hitems₂
  rw [hitems₂] at hmem₁
  exact Bool.eq_iff_iff.mpr (hmem₁.symm.trans hmem₂)

/-- A created buffer is a bounded queue in the mode that the caller asked for if and only if
the caller gives the storage, or asks for overwriting, or `malloc` returns memory without that
bit. `cbuf_create` clears the storage that it is given (`memset`) and not the storage that it
allocates, so there a bit that was in the memory stays. -/
theorem refinesFifo_iff (hcreate : cbufCreate given max name flags clfunc malloc = some chdr) :
    RefinesFifo chdr max.toNat (cbOverwrite flags) clfunc ↔
      given.isSome = true ∨ cbOverwrite flags = true ∨
        malloc.header.any (cbOverwrite ·.flags) = false := by
  have hcreated := refinesFifo_created hcreate
  have hmode := cbOverwrite_of_cbufCreate hcreate
  -- A created buffer is a queue in the mode of its header, and that mode is the only one.
  constructor
  · intro h
    have hpos := (represents_of_cbufCreate hcreate).capacity_pos
    rw [overwrite_eq_of_refinesFifo hpos hcreated h] at hmode
    cases given with
    | some mem => exact .inl rfl
    | none =>
        cases hflags : cbOverwrite flags with
        | true => exact .inr (.inl rfl)
        | false =>
            rw [hflags] at hmode
            simpa using hmode.symm
  · intro h
    have heq : cbOverwrite chdr.flags = cbOverwrite flags := by
      rw [hmode]
      rcases h with hgiven | hflags | hmem
      · cases given with
        | none => cases hgiven
        | some mem => simp
      · simp [hflags]
      · simp [hmem]
    rw [← heq]
    exact hcreated

/-- A header as `malloc` may return it, with the overwrite bit set by whoever used the memory
before. -/
def staleHeader : CbufHeader := { zeroHeader with flags := cbFlagsOverwrite }

/-- An overwriting buffer of two entries in the caller's storage is the queue that was asked
for, here after four operations. -/
theorem refinesFifo_iff_given :
    ∃ chdr chdr' outs, ∃ q : Fifo Data 2,
      cbufCreate (some staleHeader) 2 none cbFlagsOverwrite true
        ⟨none, fun cmax => some (List.Vector.replicate cmax 9)⟩ = some chdr ∧
      run (cbufStep 3) chdr [.enqueue 5, .enqueue 6, .enqueue 7, .dequeue] = some (chdr', outs) ∧
      run (fifoStep true true) Fifo.empty [.enqueue 5, .enqueue 6, .enqueue 7, .dequeue]
        = some (q, outs) ∧
      window chdr'.buffer chdr'.base chdr'.count = q.items := by
  obtain ⟨chdr, hcreate⟩ : ∃ chdr, cbufCreate (some staleHeader) 2 none cbFlagsOverwrite true
      ⟨none, fun cmax => some (List.Vector.replicate cmax 9)⟩ = some chdr := ⟨_, rfl⟩
  have hrefines := (refinesFifo_iff hcreate).mpr (.inl rfl)
  obtain ⟨chdr', outs, q, hrun, hq, hitems, -⟩ :=
    hrefines [.enqueue 5, .enqueue 6, .enqueue 7, .dequeue] (by simp [null]) 3 (by decide)
  exact ⟨chdr, chdr', outs, q, hcreate, hrun, hq, hitems⟩

/-- A buffer of one entry in allocated storage, created without the overwrite flag. The old
flags of the memory have the bit, and the second item replaces the first, where the queue
without overwriting keeps the first. -/
theorem not_refinesFifo_stale :
    ∃ chdr, cbufCreate none 1 none 0 false
        ⟨some staleHeader, fun cmax => some (List.Vector.replicate cmax 9)⟩ = some chdr ∧
      (∃ chdr' outs, run (cbufStep 2) chdr [.enqueue 1, .enqueue 2] = some (chdr', outs) ∧
        window chdr'.buffer chdr'.base chdr'.count = [2]) ∧
      ¬RefinesFifo chdr 1 (cbOverwrite 0) false := by
  refine ⟨_, rfl, ⟨_, _, rfl, rfl⟩, fun h => ?_⟩
  obtain ⟨chdr', outs, q, hrun, hq, hitems, -⟩ :=
    h [.enqueue 1, .enqueue 2] (by simp [null]) 2 (by decide)
  cases hrun
  cases hq
  revert hitems
  decide

end Create

end MyTestFiles.Proofs.CircBuffer
