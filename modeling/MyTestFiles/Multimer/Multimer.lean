import MyTestFiles.Lib.Chain
import MyTestFiles.Lib.CInt
import MyTestFiles.Lib.Run

/-!
# `MyTestFiles.Multimer.Multimer`: the multiple timer package of `multimer.c`

The package keeps one queue of pending timers, in the order of their times, over the single
timer of the operating system. A client sets a timer with `timer_set`, and the main loop of the
program calls `timer_get`, which calls the event handlers of the timers that are due and
returns the time to the next one.

* **Memory.** The heap gives the Timer Queue Element at an address that `malloc` has returned.
  None is ever freed: an element is on the timer queue or on the free queue. A `TQE` pointer
  that the source makes out of `&timerQ` is `NULL` here.
* **Faults.** A failed assertion, or an access to an address that is not allocated, is a fault
  (`none`).
* **Surroundings.** What `malloc` and `gettimeofday` return are arguments.
* **Time.** Both fields of `struct timeval` are a `long` of 64 bits. A sum or a difference that
  leaves it wraps (`int64`).
* **Handlers.** A handler may come back to the package. `Op` and `step` are the package as a
  machine, in which a handler is the operations that it performs; `timerGet` is the loop of
  `timer_get` with its handlers.
-/

set_option autoImplicit false

namespace MyTestFiles.Multimer

open MyTestFiles.Lib

/-! ### Times -/

/-- `struct timeval`, whose fields are both a `long`. -/
@[ext] structure Timeval where
  tvSec : Int
  tvUsec : Int
  deriving DecidableEq

/-- The macro `timeradd`, with the carry out of the microseconds. -/
def timeradd (a b : Timeval) : Timeval :=
  let usec := int64 (a.tvUsec + b.tvUsec)
  if usec ≥ 1000000 then
    { tvSec := int64 (a.tvSec + b.tvSec + 1), tvUsec := usec - 1000000 }
  else { tvSec := int64 (a.tvSec + b.tvSec), tvUsec := usec }

/-- The macro `timerless`. -/
def timerless (a b : Timeval) : Bool :=
  a.tvSec < b.tvSec ∨ (a.tvSec = b.tvSec ∧ a.tvUsec < b.tvUsec)

/-! ### The two queues -/

/-- The address of an element. -/
abbrev Ptr := BitVec 64

/-- The pointer `NULL`. -/
def null : Ptr := 0

/-- The `unsigned long` that a client gives its timer. -/
abbrev NotifyClient := BitVec 64

/-- The address of an event handler. -/
abbrev NotifyFunc := BitVec 64

/-- A Timer Queue Element. -/
structure TQE where
  link : Ptr
  time : Timeval
  interval : Timeval
  func : NotifyFunc
  client : NotifyClient
  deriving DecidableEq

/-- The two static queues and the elements. -/
structure Timers where
  timerQ : Ptr
  freeTQEQ : Ptr
  heap : Ptr → Option TQE

/-- No element has been allocated. -/
def Timers.start : Timers where
  timerQ := null
  freeTQEQ := null
  heap _ := none

namespace Timers

/-- Reads `p->link`. -/
def link (t : Timers) (p : Ptr) : Option Ptr := (t.heap p).map (·.link)

/-- Puts `e` at the address `p`. -/
def put (t : Timers) (p : Ptr) (e : TQE) : Timers :=
  { t with heap := Function.update t.heap p (some e) }

/-- `*p = f(*p)` -/
def modify (t : Timers) (p : Ptr) (f : TQE → TQE) : Option Timers :=
  (t.heap p).map fun e => t.put p (f e)

/-- `p->link = q` -/
def setLink (t : Timers) (p q : Ptr) : Option Timers := t.modify p fun e => { e with link := q }

/-- `op->link = q`, where `op` may be `&timerQ`. -/
def setNext (t : Timers) (op q : Ptr) : Option Timers :=
  if op = null then some { t with timerQ := q } else t.setLink op q

/-- `for (np = timerQ; np; op = np, np = np->link) if (stop) break;`, with `op` and `np` where
it stops. The queue is no longer than there are addresses. -/
def scan (t : Timers) (stop : TQE → Bool) : Option (Ptr × Ptr) :=
  loop (searchPass null t.link fun p => (t.heap p).map stop) (2 ^ 64 + 1) (null, t.timerQ)

/-- One pass of the loop in `timer_check`. -/
def timerCheckPass (t : Timers) (np : Ptr) : Option (Pass Ptr Unit) :=
  if np = null then some (.done ())
  else do
    let e ← t.heap np
    if e.time.tvUsec < 1000000 ∧ e.interval.tvUsec < 1000000 then some (.again e.link) else none

/-- `timer_check`: every time and every interval on the queue is normal. -/
def timerCheck (t : Timers) : Option Unit := loop t.timerCheckPass (2 ^ 64 + 1) t.timerQ

/-- `tp->link = freeTQEQ; freeTQEQ = tp;` -/
def putFree (t : Timers) (tp : Ptr) : Option Timers := do
  let t ← t.setLink tp t.freeTQEQ
  some { t with freeTQEQ := tp }

/-- `if (!freeTQEQ) { .. } tp = freeTQEQ; freeTQEQ = tp->link;`, where `malloc` returns
`fresh`, which is not in use. The time, function and client of a new element have no value
yet. -/
def takeFree (t : Timers) (fresh : Ptr) : Option (Timers × Ptr) := do
  let t ←
    if t.freeTQEQ = null then
      if fresh = null ∨ (t.heap fresh).isSome then none
      else
        let e := { link := null, time := ⟨0, 0⟩, interval := ⟨0, 0⟩, func := 0, client := 0 }
        some { t.put fresh e with freeTQEQ := fresh }
    else some t
  let tp := t.freeTQEQ
  let next ← t.link tp
  some ({ t with freeTQEQ := next }, tp)

/-- The first scan of `timer_set`: takes the timer of `client` out of the queue. The result
is its element, or `NULL`. -/
def unlinkClient (t : Timers) (client : NotifyClient) : Option (Timers × Ptr) := do
  let (op, np) ← t.scan fun e => e.client = client
  if np = null then some (t, null)
  else do
    let next ← t.link np
    let t ← t.setNext op next
    some (t, np)

/-- The second scan of `timer_set`: puts `tp` into the queue. -/
def insertTimer (t : Timers) (tp : Ptr) : Option Timers := do
  let new ← t.heap tp
  let (op, np) ← t.scan fun e => timerless new.time e.time
  let t ← t.setNext op tp
  t.setLink tp np

/-- `timer_set`, where `interval` is `none` for `NULL`. The pointer `&(tp->interval)` that it
returns is `tp` here. -/
def timerSet (t : Timers) (interval : Option Timeval) (func : NotifyFunc)
    (client : NotifyClient) (relative : Bool) (now : Timeval) (fresh : Ptr) :
    Option (Timers × Ptr) := do
  let (t, np) ← t.unlinkClient client
  match interval with
  | none => do
      let t ← if np ≠ null then t.putFree np else some t
      some (t, null)
  | some interval => do
      let (t, tp) ← if np = null then t.takeFree fresh else some (t, np)
      let time := if relative then timeradd now interval else interval
      if relative ∧ ¬ time.tvUsec < 1000000 then none
      else do
        let t ← t.modify tp fun e => { e with time := time, func := func, client := client }
        let t ← t.insertTimer tp
        t.timerCheck
        some (t, tp)

/-- What one pass of `timer_get` comes to. -/
inductive GetPass where
  | empty
  | timeout (timeout : Timeval)
  | call (func : NotifyFunc) (client : NotifyClient)
  deriving DecidableEq

/-- The time from `now` to `time`, with the borrow from the seconds. -/
def timeUntil (time now : Timeval) : Timeval :=
  let usec := int64 (time.tvUsec - now.tvUsec)
  if usec < 0 then
    { tvSec := int64 (time.tvSec - now.tvSec - 1), tvUsec := usec + 1000000 }
  else { tvSec := int64 (time.tvSec - now.tvSec), tvUsec := usec }

/-- `if (tp->interval.tv_sec || tp->interval.tv_usec) { .. }`: puts a periodic timer back. Its
element is on the free queue, so nothing is allocated. -/
def restart (t : Timers) (tp : Ptr) : Option Timers := do
  let e ← t.heap tp
  if e.interval.tvSec ≠ 0 ∨ e.interval.tvUsec ≠ 0 then do
    let time := timeradd e.interval e.time
    let t ← t.modify tp fun e => { e with time := time }
    let (t, _) ← t.timerSet (some time) e.func e.client false ⟨0, 0⟩ null
    some t
  else some t

/-- One pass of the loop in `timer_get`, up to the call of the event handler. -/
def timerGetPass (t : Timers) (now : Timeval) : Option (Timers × GetPass) :=
  if t.timerQ = null then some (t, .empty)
  else do
    let head ← t.heap t.timerQ
    if timerless now head.time then
      let timeout := timeUntil head.time now
      if timeout.tvUsec < 1000000 then some (t, .timeout timeout) else none
    else do
      let tp := t.timerQ
      let t := { t with timerQ := head.link }
      let t ← t.putFree tp
      let t ← t.restart tp
      let e ← t.heap tp
      some (t, .call e.func e.client)

/-- `timer_pending`: whether the timer queue has an element. -/
def timerPending (t : Timers) : Bool := t.timerQ ≠ null

end Timers

/-! ### The package as a machine

An event handler may set timers, and may come back to `timer_get`, which keeps nothing of its
own from one pass to the next. So a pass of `timer_get` is one operation, and what a handler
does are the operations after it. -/

/-- An operation of a client, of the main loop or of an event handler. -/
inductive Op where
  | set (interval : Option Timeval) (func : NotifyFunc) (client : NotifyClient)
      (relative : Bool) (now : Timeval) (fresh : Ptr)
  /-- The caller of `timer_set` stores through the pointer that it returned. -/
  | store (p : Ptr) (interval : Timeval)
  | get (now : Timeval)
  | pending
  deriving DecidableEq

/-- What an operation returns. -/
inductive Returned where
  | interval (p : Ptr)
  | stored
  | get (pass : Timers.GetPass)
  | pending (b : Bool)
  deriving DecidableEq

/-- Performs one operation. It is `none` where the operation faults. -/
def step (t : Timers) : Op → Option (Timers × Returned)
  | .set interval func client relative now fresh => do
      let (t, p) ← t.timerSet interval func client relative now fresh
      some (t, .interval p)
  | .store p interval => do
      let t ← t.modify p fun e => { e with interval := interval }
      some (t, .stored)
  | .get now => do
      let (t, pass) ← t.timerGetPass now
      some (t, .get pass)
  | .pending => some (t, .pending t.timerPending)

/-! ### `timer_get` with its handlers -/

/-- The operations that the handlers perform when they are called. -/
abbrev Handlers := NotifyFunc → NotifyClient → Timers → List Op

/-- `timer_get` at the start of a pass: the package, the number of times the clock has been
read, and the calls made. -/
structure Getting where
  timers : Timers
  reads : Nat
  calls : List (NotifyFunc × NotifyClient)

/-- One pass of the loop in `timer_get`, with the call of the event handler. -/
def timerGetBody (handlers : Handlers) (clock : Nat → Timeval) (g : Getting) :
    Option (Pass Getting (Getting × Option Timeval)) := do
  let (t, pass) ← g.timers.timerGetPass (clock g.reads)
  match pass with
  | .empty => some (.done ({ g with timers := t }, none))
  | .timeout timeout =>
      some (.done ({ g with timers := t, reads := g.reads + 1 }, some timeout))
  | .call func client => do
      let (t, _) ← run step t (handlers func client t)
      some (.again
        { timers := t, reads := g.reads + 1, calls := g.calls ++ [(func, client)] })

/-- `timer_get`, where `clock` gives the readings of `gettimeofday`, one after the other. The
result is the timeout, or `none` for `NULL`. -/
def timerGet (handlers : Handlers) (clock : Nat → Timeval) (fuel : Nat) (t : Timers) :
    Option (Getting × Option Timeval) := do
  t.timerCheck
  loop (timerGetBody handlers clock) fuel { timers := t, reads := 0, calls := [] }

end MyTestFiles.Multimer
