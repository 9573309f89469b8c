import MyTestFiles.Proofs.CircBuffer.Refinement

/-!
# `MyTestFiles.Proofs.CircBuffer.Ownership`: where each pointer is

A pointer that `cbuf_enqueue` accepts is in the buffer until it is handed back by
`cbuf_dequeue` or passed to the cleanup function. `Balanced` counts the places of a pointer,
and each step keeps the balance (`keepingStep_balanced`), except for an enqueue on a full
buffer without overwriting, which accepts a pointer and drops it.

`pointers_owned` is the result over every run that makes no such call, and
`not_alwaysOwned` shows what that call does.

The history of a run has every call with its answer and its events, and all counts are taken from
it: a pointer is accepted or refused by an enqueue, handed back by a dequeue, or passed to the
cleanup function by one of the calls. A pointer may be enqueued more than once, so the counts are
of occurrences.

* `Owned` is the result for distinct pointers: each accepted one is at exactly one place, and a
  refused one at none.
* The balance is first proved of the queue (`fifoStep_balanced`) and carried over to the buffer by
  the refinement (`keepingStep_balanced`), so no cell of the array is counted here.
* The destruction of a buffer passes to the cleanup function what is in it then
  (`cbufDestroy_events`), where one is set.
-/

set_option autoImplicit false

namespace MyTestFiles.Proofs.CircBuffer

open MyTestFiles.Lib
open MyTestFiles.CircBuffer

/-! ### The places of a pointer -/

/-- The result and the events of a call. -/
abbrev Answer := CbufRet × List Event

/-- The pointer that a call accepts. -/
def acceptedBy : CbufOp × Answer → List Data
  | (.enqueue data, .boolean true, _) => [data]
  | _ => []

/-- The pointer that a call refuses. -/
def refusedBy : CbufOp × Answer → List Data
  | (.enqueue data, .boolean false, _) => [data]
  | _ => []

/-- The pointer that a call hands back. `NULL` is the answer of an empty buffer. -/
def dequeuedBy : CbufOp × Answer → List Data
  | (.dequeue, .pointer data, _) => if data = null then [] else [data]
  | _ => []

/-- The pointers passed to the cleanup function. -/
def cleanedBy (events : List Event) : List Data :=
  events.flatMap fun
    | .cleanup data => [data]
    | _ => []

/-- A history: the calls with their answers. -/
abbrev History := List (CbufOp × Answer)

/-- The pointers that were accepted, in order. -/
def accepted (history : History) : List Data := history.flatMap acceptedBy

/-- The pointers that were refused. -/
def refused (history : History) : List Data := history.flatMap refusedBy

/-- The pointers that were handed back. -/
def dequeued (history : History) : List Data := history.flatMap dequeuedBy

/-- The pointers that were passed to the cleanup function. -/
def cleaned (history : History) : List Data := history.flatMap fun call => cleanedBy call.2.2

/-- The pointers that a caller enqueues. -/
def enqueued (ops : List CbufOp) : List Data :=
  ops.flatMap fun
    | .enqueue data => [data]
    | _ => []

/-- Each accepted pointer is at exactly one place: in the buffer, handed back once, or cleaned up
once. A refused one is at none. The last argument is what is cleaned up in the end. -/
structure Owned (history : History) (items final : List Data) : Prop where
  once : ∀ data ∈ accepted history, items.count data + (dequeued history).count data
    + (cleaned history ++ final).count data = 1
  never : ∀ data ∈ refused history,
    data ∉ items ∧ data ∉ dequeued history ∧ data ∉ cleaned history ++ final

/-! ### Steps -/

section Step
variable {capacity : Nat} {overwrite : Bool} {chdr chdr' : CbufHeader}
  {q q' : Fifo Data capacity} {op : CbufOp} {o : Answer}

/-- A call that keeps the account: the buffer overwrites, or is not full. `NULL` is no
pointer. -/
def KeepsPointers (chdr : CbufHeader) : CbufOp → Prop
  | .enqueue data => data ≠ null ∧ (cbOverwrite chdr.flags = true ∨ cbFull chdr = false)
  | _ => True

instance (chdr : CbufHeader) (op : CbufOp) : Decidable (KeepsPointers chdr op) :=
  match op with
  | .enqueue data =>
      inferInstanceAs (Decidable
        (data ≠ null ∧ (cbOverwrite chdr.flags = true ∨ cbFull chdr = false)))
  | .dequeue | .peekqueue | .reset | .lookup _ _ => inferInstanceAs (Decidable True)

/-- The calls that keep the account. -/
def keepingStep (fuel : Nat) (chdr : CbufHeader) (op : CbufOp) : Option (CbufHeader × Answer) :=
  if KeepsPointers chdr op then cbufStep fuel chdr op else none

/-- The pointers of one call, between two queues. -/
def Balanced (items items' : List Data) (call : CbufOp × Answer) : Prop :=
  ∀ data, items'.count data + (dequeuedBy call).count data + (cleanedBy call.2.2).count data
    = items.count data + (acceptedBy call).count data

/-- The cleanup of some items cleans up these items. -/
theorem cleanedBy_map_cleanup (items : List Data) :
    cleanedBy (items.map Event.cleanup) = items := by
  induction items with
  | nil => rfl
  | cons x items ih => simpa [cleanedBy] using ih

/-- A lookup cleans up nothing. -/
theorem cleanedBy_map_lookup (items : List Data) (data : Data) :
    cleanedBy (items.map fun x => Event.lookup x data) = [] := by
  induction items with
  | nil => rfl
  | cons x items ih => simp [cleanedBy]

/-- One call on the queue. -/
theorem fifoStep_balanced (h : fifoStep overwrite true q op = some (q', o))
    (hnull : null ∉ q.items)
    (hop : ∀ data, op = .enqueue data → overwrite = true ∨ q.full = false) :
    Balanced q.items q'.items (op, o) := by
  intro x
  cases op with
  | enqueue data =>
      cases h
      cases hfull : q.full with
      | false => simp [Fifo.items_enqueue_of_not_full _ hfull, dequeuedBy, cleanedBy, acceptedBy]
      | true =>
          have hover : overwrite = true := (hop data rfl).resolve_right (by simp [hfull])
          subst hover
          -- the oldest item is cleaned up
          obtain ⟨y, rest, hitems⟩ := List.exists_cons_of_ne_nil (l := q.items ++ [data]) (by simp)
          have hcount := congrArg (List.count x) hitems
          rw [List.count_append] at hcount
          simp only [Fifo.items_enqueue_of_full hfull, hitems, dequeuedBy, acceptedBy,
            List.tail_cons,
            Bool.and_self, if_true, cleanedBy_map_cleanup, List.take_succ_cons, List.take_zero,
            List.count_nil]
          rw [hcount, List.count_cons, List.count_cons]
          simp
  | dequeue =>
      cases h
      cases hitems : q.items with
      | nil => simp [oldest, hitems, dequeuedBy, cleanedBy, acceptedBy]
      | cons y rest =>
          have hy : y ≠ null := by
            rintro rfl
            exact hnull (by simp [hitems])
          simp [oldest, hitems, dequeuedBy, cleanedBy, acceptedBy, hy, List.count_cons]
  | peekqueue =>
      cases h
      simp [dequeuedBy, cleanedBy, acceptedBy]
  | reset =>
      cases h
      simp [dequeuedBy, acceptedBy, cleanedBy_map_cleanup]
  | lookup data func =>
      cases h
      simp [dequeuedBy, acceptedBy, cleanedBy_map_lookup]

/-- An enqueue on the queue is never refused. -/
theorem fifoStep_refusedBy (h : fifoStep overwrite true q op = some (q', o)) :
    refusedBy (op, o) = [] := by
  cases op <;> cases h <;> rfl

/-- One call on the buffer: the same call on the queue, which keeps the balance. -/
theorem keepingStep_balanced {fuel : Nat} (hfuel : capacity < fuel)
    (h : Represents overwrite true chdr q) (hnull : null ∉ q.items)
    (hstep : keepingStep fuel chdr op = some (chdr', o)) :
    ∃ q' : Fifo Data capacity, Represents overwrite true chdr' q' ∧ null ∉ q'.items ∧
      Balanced q.items q'.items (op, o) ∧ refusedBy (op, o) = [] := by
  rw [keepingStep, Option.ite_none_right_eq_some] at hstep
  obtain ⟨hkeeps, hstep⟩ := hstep
  obtain ⟨q', o', hq⟩ := fifoStep_total capacity overwrite true q op
  obtain ⟨chdr'', hrun, hrep⟩ := cbuf_simulates hfuel chdr q h op q' o' hq
  rw [hstep] at hrun
  cases hrun
  refine ⟨q', hrep, null_not_mem_fifoStep hq hnull ?_, fifoStep_balanced hq hnull ?_,
    fifoStep_refusedBy hq⟩
  · rintro data rfl
    exact hkeeps.1
  · rintro data rfl
    rw [← h.overwrite_eq, ← h.cbFull_eq]
    exact hkeeps.2

end Step

/-! ### Runs -/

section Run
variable {capacity : Nat} {overwrite : Bool} {chdr chdr' : CbufHeader} {q : Fifo Data capacity}
  {ops : List CbufOp} {outs : List Answer} {fuel : Nat}

/-- The pointers of a whole history, between two queues. -/
theorem keepingRun_balanced (hfuel : capacity < fuel) (h : Represents overwrite true chdr q)
    (hnull : null ∉ q.items) (hrun : run (keepingStep fuel) chdr ops = some (chdr', outs)) :
    ∃ q' : Fifo Data capacity, Represents overwrite true chdr' q' ∧
      refused (ops.zip outs) = [] ∧
      ∀ data, q'.items.count data + (dequeued (ops.zip outs)).count data
          + (cleaned (ops.zip outs)).count data
        = q.items.count data + (accepted (ops.zip outs)).count data := by
  induction ops generalizing chdr q outs with
  | nil =>
      cases hrun
      exact ⟨q, h, rfl, fun data => rfl⟩
  | cons op ops ih =>
      obtain ⟨chdr₁, o, outs, hstep, hrest, rfl⟩ := run_cons_eq_some hrun
      obtain ⟨q₁, hrep, hnull₁, hstep, hrefused⟩ := keepingStep_balanced hfuel h hnull hstep
      obtain ⟨q', hrep', hrefused', hbalance⟩ := ih hrep hnull₁ hrest
      refine ⟨q', hrep', ?_, ?_⟩
      · rw [List.zip_cons_cons, refused, List.flatMap_cons, hrefused, List.nil_append]
        exact hrefused'
      · -- the balance of the first call and that of the others add up
        intro data
        have hfirst := hstep data
        dsimp only at hfirst
        have hothers := hbalance data
        simp only [List.zip_cons_cons, dequeued, cleaned, accepted, List.flatMap_cons,
          List.count_append] at hothers ⊢
        omega

/-- The accepted pointers are among the enqueued ones. -/
theorem accepted_sublist (ops : List CbufOp) (outs : List Answer) :
    (accepted (ops.zip outs)).Sublist (enqueued ops) := by
  induction ops generalizing outs with
  | nil => exact .slnil
  | cons op ops ih =>
      cases outs with
      | nil => exact List.nil_sublist _
      | cons o outs =>
          rw [List.zip_cons_cons, accepted, enqueued, List.flatMap_cons, List.flatMap_cons]
          refine List.Sublist.append ?_ (ih outs)
          cases op with
          | enqueue data =>
              obtain ⟨ret, events⟩ := o
              cases ret with
              | boolean b => cases b <;> simp [acceptedBy]
              | pointer data => simp [acceptedBy]
          | dequeue | peekqueue | reset | lookup data func => exact List.nil_sublist _

/-- A balanced history of distinct pointers. -/
theorem owned_of_balanced {items final : List Data} (hdistinct : (enqueued ops).Nodup)
    (hrefused : refused (ops.zip outs) = [])
    (hbalance : ∀ data, items.count data + (dequeued (ops.zip outs)).count data
        + (cleaned (ops.zip outs) ++ final).count data = (accepted (ops.zip outs)).count data) :
    Owned (ops.zip outs) items final := by
  constructor
  · intro data hdata
    rw [hbalance data]
    exact List.count_eq_one_of_mem (hdistinct.sublist (accepted_sublist ops outs)) hdata
  · intro data hdata
    rw [hrefused] at hdata
    exact absurd hdata List.not_mem_nil

/-- The destruction of a buffer cleans up what is in it. -/
theorem cbufDestroy_events (hfuel : capacity < fuel) (h : Represents overwrite true chdr q) :
    ∃ chdr', cbufDestroy fuel chdr = some (chdr', true, q.items.map Event.cleanup) := by
  cases hitems : q.items with
  | nil =>
      have hempty : cbEmpty chdr = true := by rw [h.cbEmpty_eq, hitems]; rfl
      refine ⟨{ chdr with flags := chdr.flags &&& ~~~cbFlagsValid, buffer := [] }, ?_⟩
      simp [cbufDestroy, hempty]
  | cons x rest =>
      have hempty : cbEmpty chdr = false := by rw [h.cbEmpty_eq, hitems]; rfl
      have hstart : Represents.Walk chdr q.items Event.cleanup (chdr.base, []) [] q.items :=
        ⟨rfl, rfl, h.ring⟩
      obtain ⟨events, hloop, hevents⟩ :=
        loop_rule _ h.resetPass_ok ⟨_, _, hstart, rfl⟩ (q.bounded.trans_lt hfuel)
      refine ⟨{ chdr with flags := chdr.flags &&& ~~~cbFlagsValid, buffer := [] }, ?_⟩
      rw [← hitems, ← hevents]
      simp [cbufDestroy, hempty, h.cleanup_eq, hloop]

/-- A history of calls, of which none is an enqueue that a full buffer drops. -/
theorem run_of_keeping (hrun : run (keepingStep fuel) chdr ops = some (chdr', outs)) :
    run (cbufStep fuel) chdr ops = some (chdr', outs) := by
  induction ops generalizing chdr outs with
  | nil => exact hrun
  | cons op ops ih =>
      obtain ⟨chdr₁, o, outs, hstep, hrest, rfl⟩ := run_cons_eq_some hrun
      rw [keepingStep, Option.ite_none_right_eq_some] at hstep
      exact run_cons_of_step hstep.2 (ih hrest)

end Run

section Create
variable {given : Option CbufHeader} {max : BitVec 16} {name : Option String} {flags : BitVec 16}
  {malloc : Malloc} {chdr chdr' : CbufHeader} {ops : List CbufOp} {outs : List Answer}

/-- After every run that makes no enqueue on a full buffer without overwriting, each accepted
pointer is at exactly one place; and so it is after `cbuf_destroy`, when nothing is in the
buffer any more. -/
theorem pointers_owned (hcreate : cbufCreate given max name flags true malloc = some chdr)
    {fuel : Nat} (hfuel : max.toNat < fuel) (hdistinct : (enqueued ops).Nodup)
    (hrun : run (keepingStep fuel) chdr ops = some (chdr', outs)) :
    run (cbufStep fuel) chdr ops = some (chdr', outs) ∧
    Owned (ops.zip outs) (window chdr'.buffer chdr'.base chdr'.count) [] ∧
    ∃ chdr'' events, cbufDestroy fuel chdr' = some (chdr'', true, events) ∧
      Owned (ops.zip outs) [] (cleanedBy events) := by
  obtain ⟨q, hrep, hrefused, hbalance⟩ :=
    keepingRun_balanced hfuel (represents_of_cbufCreate hcreate) (by simp) hrun
  obtain ⟨chdr'', hdestroy⟩ := cbufDestroy_events hfuel hrep
  refine ⟨run_of_keeping hrun, ?_, chdr'', _, hdestroy, ?_⟩
  · rw [hrep.count_eq, hrep.ring.holds]
    refine owned_of_balanced hdistinct hrefused fun data => ?_
    have hplaces := hbalance data
    simpa using hplaces
  · refine owned_of_balanced hdistinct hrefused fun data => ?_
    have hplaces := hbalance data
    rw [cleanedBy_map_cleanup, List.count_append]
    simp only [Fifo.items_empty, List.count_nil] at hplaces ⊢
    omega

/-- A header for one entry. -/
def oneEntry (flags : BitVec 16) : CbufHeader where
  buffer := [9, 9]
  curr := 0
  base := 0
  flags := flags
  count := 0
  max := 2
  name := "(unknown)"
  cleanupFunc := true

/-- It is created in the caller's storage. -/
theorem cbufCreate_oneEntry :
    (∀ flags ∈ [0, cbFlagsOverwrite], cbufCreate (some zeroHeader) 1 none flags true
      ⟨none, fun cmax => some (List.Vector.replicate cmax 9)⟩
        = some (oneEntry (flags ||| cbFlagsValid))) := by
  intro flags hflags
  rcases List.mem_pair.mp hflags with rfl | rfl <;> rfl

/-- The second enqueue cleans up the first pointer. -/
theorem pointers_owned_overwriting : ∃ chdr' outs,
    run (cbufStep 2) (oneEntry 0x8001) [.enqueue 5, .enqueue 6] = some (chdr', outs) ∧
    Owned ([.enqueue 5, .enqueue 6].zip outs) (window chdr'.buffer chdr'.base chdr'.count) [] := by
  have hcreate := cbufCreate_oneEntry cbFlagsOverwrite (by simp)
  have hkeeping : run (keepingStep 2) (oneEntry 0x8001) [.enqueue 5, .enqueue 6] = some (_, _) :=
    rfl
  obtain ⟨hrun, howned, -⟩ :=
    pointers_owned hcreate (by decide : (1 : BitVec 16).toNat < 2) (by decide) hkeeping
  exact ⟨_, _, hrun, howned⟩

/-- Every pointer is owned after every run. -/
def AlwaysOwned : Prop :=
  ∀ (given : Option CbufHeader) (max : BitVec 16) (name : Option String) (flags : BitVec 16)
    (malloc : Malloc) (chdr chdr' : CbufHeader) (ops : List CbufOp) (outs : List Answer)
    (fuel : Nat), cbufCreate given max name flags true malloc = some chdr → max.toNat < fuel →
    null ∉ enqueued ops → (enqueued ops).Nodup →
    run (cbufStep fuel) chdr ops = some (chdr', outs) →
    Owned (ops.zip outs) (window chdr'.buffer chdr'.base chdr'.count) []

/-- A buffer of one entry without overwriting accepts a second pointer, and it is nowhere. -/
theorem not_alwaysOwned : ¬ AlwaysOwned := by
  intro h
  have hrun : run (cbufStep 2) (oneEntry 0x8000) [.enqueue 5, .enqueue 6] = some (_, _) := rfl
  have howned := h _ _ _ _ _ _ _ _ _ 2 (cbufCreate_oneEntry 0 (by simp)) (by decide) (by decide)
    (by decide) hrun
  have hplace := howned.once 6 (by decide)
  revert hplace
  decide

end Create

end MyTestFiles.Proofs.CircBuffer
