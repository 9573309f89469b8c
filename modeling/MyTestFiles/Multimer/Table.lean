import Mathlib.Data.Prod.Lex
import MyTestFiles.Multimer.Multimer

/-!
# `MyTestFiles.Multimer.Table`: the timers as lists

What the package keeps, without the links: the elements on the timer queue in order, those on
the free queue, and what each holds. `Table.step` performs the operations of the package on
these lists. It is the abstract machine that `step` is compared with, so its functions speak of
lists where the source follows pointers: a timer is taken out with `List.eraseP` and put in
with `List.orderedInsert`.

* `Table.Sound` is the invariant. The queue is in time order, no client has two timers, and the
  times and intervals are normal.
* `Op.Allowed` is what the callers see to. Without it the assertions of the package fail.
* `Op.InRange` bounds the seconds, so that no sum of two times overflows. Only the results that
  speak of sums of times need it.

An element is named by its pointer in both machines, so the results of the operations can be
compared as they are. What an element holds besides its link is a `Timer`, and that of an element
on the free queue is what it held last.

The time of a timer is computed with `timeradd`, as in the source, so a sum that wraps in the
source wraps here as well.
-/

set_option autoImplicit false

namespace MyTestFiles.Multimer

/-- `timerless` is the order of the seconds, then of the microseconds. -/
instance : LinearOrder Timeval :=
  LinearOrder.lift' (fun a => toLex (a.tvSec, a.tvUsec)) fun a b h => by
    have heq := Prod.mk.inj (toLex.injective h)
    exact Timeval.ext heq.1 heq.2

/-- What a `TQE` holds besides its link. -/
@[ext] structure Timer where
  time : Timeval
  interval : Timeval
  func : NotifyFunc
  client : NotifyClient
  deriving DecidableEq

/-- The element without its link. -/
def TQE.timer (e : TQE) : Timer where
  time := e.time
  interval := e.interval
  func := e.func
  client := e.client

/-- The elements on the two queues, and what the elements hold. -/
structure Table where
  queue : List Ptr
  free : List Ptr
  timer : Ptr → Timer

/-- A new element: its interval is zero. -/
def Timer.new : Timer := ⟨⟨0, 0⟩, ⟨0, 0⟩, 0, 0⟩

namespace Table

/-- Before the first operation. -/
def start : Table where
  queue := []
  free := []
  timer _ := Timer.new

/-- The time of `p` is before that of `q`. -/
def Earlier (timer : Ptr → Timer) (p q : Ptr) : Prop := (timer p).time < (timer q).time

instance (timer : Ptr → Timer) : DecidableRel (Earlier timer) := fun p q =>
  inferInstanceAs (Decidable ((timer p).time < (timer q).time))

/-- The element of the pending timer of `client`. -/
def find (T : Table) (client : NotifyClient) : Option Ptr :=
  T.queue.find? fun p => (T.timer p).client = client

/-- The queue without the timer of `client`. -/
def without (T : Table) (client : NotifyClient) : List Ptr :=
  T.queue.eraseP fun p => (T.timer p).client = client

/-- `p` holds a timer and stands behind the timers that are not later. -/
def arm (T : Table) (p : Ptr) (time : Timeval) (func : NotifyFunc) (client : NotifyClient) :
    Table :=
  let e := { T.timer p with time := time, func := func, client := client }
  let timer := Function.update T.timer p e
  { T with queue := T.queue.orderedInsert (Earlier timer) p, timer := timer }

/-- `timer_set`. A client that has a timer keeps its element. Another takes the first free
element, or a new one where there is none. -/
def set (T : Table) (interval : Option Timeval) (func : NotifyFunc) (client : NotifyClient)
    (relative : Bool) (now : Timeval) (fresh : Ptr) : Table × Ptr :=
  let T' := { T with queue := T.without client }
  match interval with
  | none =>
      match T.find client with
      | none => (T, null)
      | some p => ({ T' with free := p :: T.free }, null)
  | some interval =>
      let time := if relative then timeradd now interval else interval
      match T.find client, T.free with
      | some p, _ => (T'.arm p time func client, p)
      | none, p :: free => ({ T' with free := free }.arm p time func client, p)
      | none, [] =>
          let timer := Function.update T.timer fresh Timer.new
          ({ T' with timer := timer }.arm fresh time func client, fresh)

/-- A store through the pointer that `timer_set` has returned. -/
def store (T : Table) (p : Ptr) (interval : Timeval) : Table :=
  { T with timer := Function.update T.timer p { T.timer p with interval := interval } }

/-- One pass of `timer_get`, up to the call of the event handler. -/
def getPass (T : Table) (now : Timeval) : Table × Timers.GetPass :=
  match T.queue with
  | [] => (T, .empty)
  | p :: queue =>
      let e := T.timer p
      if now < e.time then (T, .timeout (Timers.timeUntil e.time now))
      else if e.interval = ⟨0, 0⟩ then
        ({ T with queue := queue, free := p :: T.free }, .call e.func e.client)
      else
        ({ T with queue := queue }.arm p (timeradd e.interval e.time) e.func e.client,
          .call e.func e.client)

/-- Performs one operation on the lists. -/
def step (T : Table) : Op → Table × Returned
  | .set interval func client relative now fresh =>
      let (T, p) := T.set interval func client relative now fresh
      (T, .interval p)
  | .store p interval => (T.store p interval, .stored)
  | .get now =>
      let (T, pass) := T.getPass now
      (T, .get pass)
  | .pending => (T, .pending !T.queue.isEmpty)

end Table

/-! ### What the package keeps -/

/-- The microseconds are less than a second. -/
def Timeval.Normal (a : Timeval) : Prop := 0 ≤ a.tvUsec ∧ a.tvUsec < 1000000

instance (a : Timeval) : Decidable a.Normal :=
  inferInstanceAs (Decidable (0 ≤ a.tvUsec ∧ a.tvUsec < 1000000))

/-- What every operation preserves. -/
structure Table.Sound (T : Table) : Prop where
  sorted : T.queue.Pairwise fun p q => (T.timer p).time ≤ (T.timer q).time
  clients : T.queue.Pairwise fun p q => (T.timer p).client ≠ (T.timer q).client
  time : ∀ p ∈ T.queue, (T.timer p).time.Normal
  interval : ∀ p, p ∈ T.queue ∨ p ∈ T.free → (T.timer p).interval.Normal

/-- What the callers of the package see to: times are normal, and stores go through pointers
that `timer_set` has returned. Where `malloc` may be called it gives a new element. -/
def Op.Allowed (t : Timers) : Op → Prop
  | .set interval _ _ _ now fresh =>
      (∀ i ∈ interval, i.Normal) ∧ now.Normal ∧
        (interval.isSome → t.freeTQEQ = null → fresh ≠ null ∧ t.heap fresh = none)
  | .store p interval => (t.heap p).isSome ∧ interval.Normal
  | .get now => now.Normal
  | .pending => True

instance (t : Timers) (op : Op) : Decidable (op.Allowed t) := by
  cases op <;> unfold Op.Allowed <;> infer_instance

/-! ### Times that do not overflow -/

/-- The seconds are not negative and are less than `2 ^ 62`. -/
def Timeval.InRange (a : Timeval) : Prop := 0 ≤ a.tvSec ∧ a.tvSec < 4611686018427387904

instance (a : Timeval) : Decidable a.InRange :=
  inferInstanceAs (Decidable (0 ≤ a.tvSec ∧ a.tvSec < 4611686018427387904))

/-- The seconds of an operation are small. What `timer_set` is given may also lie in the
past, down to `-2 ^ 62`. -/
def Op.InRange : Op → Prop
  | .set interval _ _ _ now _ =>
      (∀ i ∈ interval, -4611686018427387904 ≤ i.tvSec ∧ i.tvSec < 4611686018427387904) ∧
        now.InRange
  | .store _ interval => interval.InRange
  | .get now => now.InRange
  | .pending => True

instance (op : Op) : Decidable op.InRange := by
  cases op <;> unfold Op.InRange <;> infer_instance

/-- The operation is allowed, and its seconds are small. -/
def Op.Bounded (t : Timers) (op : Op) : Prop := op.Allowed t ∧ op.InRange

instance (t : Timers) (op : Op) : Decidable (op.Bounded t) :=
  inferInstanceAs (Decidable (op.Allowed t ∧ op.InRange))

end MyTestFiles.Multimer
