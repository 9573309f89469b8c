import MyTestFiles.Lib.Loop
import MyTestFiles.Lib.Run
import MyTestFiles.Lib.Ring

/-!
# `MyTestFiles.CircBuffer.Buffer`: the circular buffer of `circ_buffer.c`

A `CbufHeader` is a `cbuf_header` with its array: `curr` and `base` are indices into
`buffer`, and an access outside it is a fault (`none`). The cleanup and lookup functions
belong to the caller, so an operation reports its calls of them, and the debug messages it
reaches, as `Event`s. The loops run on fuel.

`fifoStep` is the purpose of the component: the same operations on a bounded queue.

* The array has a cell more than the queue has room, so a full buffer and an empty one have
  different indices. `max` counts the cells.
* A header is valid where its valid bit is set, and every operation tests that first. On a header
  that is not valid it only writes a message.
* Storage that the caller gives to `cbuf_create` is cleared. A header that `cbuf_create` allocates
  keeps what `malloc` has left in it, so its contents are an input (`Malloc`), and its old flags
  stay next to the new ones.
-/

set_option autoImplicit false

namespace MyTestFiles.CircBuffer

open MyTestFiles.Lib

/-- A `void *`. -/
abbrev Data := Nat

/-- The null pointer, which no caller enqueues. -/
def null : Data := 0

/-- `CB_FLAGS_OVERWRITE` -/
def cbFlagsOverwrite : BitVec 16 := 0x0001
/-- `CB_FLAGS_USER`, the flags that a caller may give. -/
def cbFlagsUser : BitVec 16 := 0x000F
/-- `CB_FLAGS_MALLOC`, where `cbuf_create` has allocated the header. -/
def cbFlagsMalloc : BitVec 16 := 0x0010
/-- `CB_FLAGS_VALID`, where the header is in use. -/
def cbFlagsValid : BitVec 16 := 0x8000

/-- What an operation does besides its result. -/
inductive Event where
  /-- `(*chdr->cleanup_func)(cbdata)` -/
  | cleanup (cbdata : Data)
  /-- `(*func)(cbdata, data)` -/
  | lookup (cbdata data : Data)
  /-- `cbuf_state_buginf(text)` -/
  | buginf (text : String)
  deriving DecidableEq

/-- `cbuf_header`. `cleanupFunc` says whether a cleanup function is set. The count never
passes 65536, so that the `ulong` fields are plain numbers. -/
structure CbufHeader where
  buffer : List Data
  curr : Nat
  base : Nat
  flags : BitVec 16
  count : Nat
  max : Nat
  name : String
  cleanupFunc : Bool

/-- The outcome of an operation: the header afterwards, the result and the events. -/
abbrev Outcome (α : Type) := CbufHeader × α × List Event

/-- `CB_VALID` -/
def cbValid (flags : BitVec 16) : Bool := flags &&& cbFlagsValid != 0

/-- Whether the overwrite flag is set. -/
def cbOverwrite (flags : BitVec 16) : Bool := flags &&& cbFlagsOverwrite != 0

/-- `CB_EMPTY` -/
def cbEmpty (chdr : CbufHeader) : Bool := chdr.count == 0

/-- `CB_FULL` -/
def cbFull (chdr : CbufHeader) : Bool := chdr.count == chdr.max - 1

/-- `CB_GET_DATA`: a cell outside the array is a fault. -/
def cbGetData (buffer : List Data) (node : Nat) : Option Data := buffer[node]?

/-- `CB_SET_DATA`: a cell outside the array is a fault. -/
def cbSetData (buffer : List Data) (node : Nat) (data : Data) : Option (List Data) :=
  if node < buffer.length then some (buffer.set node data) else none

/-- `cbuf_enqueue_default`: the header afterwards, the result and the events. -/
def cbufEnqueueDefault (chdr : CbufHeader) (data : Data) : Option (Outcome Bool) :=
  if !cbValid chdr.flags then
    some (chdr, false,
      [.buginf "***Circular Buffer Enqueue called for invalid data****\n"])
  else if (cbFull chdr && cbOverwrite chdr.flags) || !cbFull chdr then do
    let buffer ← cbSetData chdr.buffer chdr.curr data
    let chdr := { chdr with buffer := buffer, count := chdr.count + 1 }
    let chdr := { chdr with curr := nextCell chdr.max chdr.curr }
    if chdr.curr = chdr.base then
      let events ←
        if chdr.cleanupFunc then (cbGetData chdr.buffer chdr.base).map fun d => [.cleanup d]
        else some []
      let chdr := { chdr with base := nextCell chdr.max chdr.base, count := chdr.count - 1 }
      some (chdr, true, events)
    else some (chdr, true, [])
  else some (chdr, true, [])

/-- `cbuf_dequeue_default`: the oldest item, or null. -/
def cbufDequeueDefault (chdr : CbufHeader) : Option (Outcome Data) :=
  if !cbValid chdr.flags then
    some (chdr, null, [.buginf "***Circular Buffer Dequeue called for invalid data***\n"])
  else if cbEmpty chdr then some (chdr, null, [])
  else do
    let data ← cbGetData chdr.buffer chdr.base
    let chdr := { chdr with count := chdr.count - 1, base := nextCell chdr.max chdr.base }
    if chdr.base = chdr.curr ∧ chdr.count ≠ 0 then
      some ({ chdr with count := 0 }, data,
        [.buginf "***Circular buffer empty but count not zero***\n"])
    else some (chdr, data, [])

/-- `cbuf_peekqueue_default`: the oldest item, which stays. -/
def cbufPeekqueueDefault (chdr : CbufHeader) : Option (Outcome Data) :=
  if !cbValid chdr.flags then
    some (chdr, null, [.buginf "***Circular buffer peekqueue called with invalid data***\n"])
  else if cbEmpty chdr then some (chdr, null, [])
  else do
    let data ← cbGetData chdr.buffer chdr.base
    some (chdr, data, [])

/-- One pass of the `while` loop of `cbuf_reset_default`. The state is `runner` and the
calls so far. -/
def resetPass (chdr : CbufHeader) (s : Nat × List Event) :
    Option (Pass (Nat × List Event) (List Event)) :=
  let (runner, events) := s
  if runner ≠ chdr.curr then do
    let cbdata ← cbGetData chdr.buffer runner
    some (.again (nextCell chdr.max runner, events ++ [.cleanup cbdata]))
  else some (.done events)

/-- `cbuf_reset_default`: the cleanup function is called on each item, from the oldest on. -/
def cbufResetDefault (fuel : Nat) (chdr : CbufHeader) : Option (Outcome Bool) :=
  if !cbValid chdr.flags then
    some (chdr, false, [.buginf "***Circular buffer cleanup called with invalid data***\n"])
  else if cbEmpty chdr || !chdr.cleanupFunc then
    some ({ chdr with base := 0, curr := 0, count := 0 }, true, [])
  else do
    let events ← loop (resetPass chdr) fuel (chdr.base, [])
    some ({ chdr with base := 0, curr := 0, count := 0 }, true, events)

/-- One pass of the `while` loop of `cbuf_lookup_default`. -/
def lookupPass (chdr : CbufHeader) (data : Data) (func : Data → Data → Int)
    (s : Nat × List Event) : Option (Pass (Nat × List Event) (Data × List Event)) :=
  let (runner, events) := s
  if runner ≠ chdr.curr then do
    let cbdata ← cbGetData chdr.buffer runner
    let events := events ++ [.lookup cbdata data]
    if func cbdata data = 0 then some (.done (cbdata, events))
    else some (.again (nextCell chdr.max runner, events))
  else some (.done (null, events))

/-- `cbuf_lookup_default`: the oldest item that the lookup function finds. -/
def cbufLookupDefault (fuel : Nat) (chdr : CbufHeader) (data : Data)
    (func : Data → Data → Int) : Option (Outcome Data) :=
  if !cbValid chdr.flags then
    some (chdr, null, [.buginf "***Circular buffer lookup called with invalid data***\n"])
  else if cbEmpty chdr then some (chdr, null, [])
  else do
    let (cbdata, events) ← loop (lookupPass chdr data func) fuel (chdr.base, [])
    some (chdr, cbdata, events)

/-- What `malloc` returns in `cbuf_create`, `none` for `NULL`: a header and an array, both
with arbitrary contents. -/
structure Malloc where
  header : Option CbufHeader
  cells : (cmax : Nat) → Option (List.Vector Data cmax)

/-- `memset(chdr, 0, sizeof(cbuf_header))` -/
def zeroHeader : CbufHeader where
  buffer := []
  curr := 0
  base := 0
  flags := 0
  count := 0
  max := 0
  name := ""
  cleanupFunc := false

/-- The storage of a new header: from `malloc` when the caller gives none, and cleared
when the caller gives it. -/
def cbufStorage (given : Option CbufHeader) (malloc : Malloc) : Option CbufHeader :=
  match given with
  | none =>
      -- The contents of the new header stay as `malloc` left them.
      malloc.header.map fun chdr => { chdr with flags := chdr.flags ||| cbFlagsMalloc }
  | some _ => some zeroHeader

/-- `cbuf_create`: `given` is the caller's storage, `none` for `NULL`. The action vector
is the default one. -/
def cbufCreate (given : Option CbufHeader) (max : BitVec 16) (name : Option String)
    (flags : BitVec 16) (clfunc : Bool) (malloc : Malloc) : Option CbufHeader :=
  if max = 0 then none
  else do
    let chdr ← cbufStorage given malloc
    let cmax := max.toNat + 1
    let chdr := { chdr with
      max := cmax
      count := 0
      name := name.getD "(unknown)"
      flags := chdr.flags ||| (flags &&& cbFlagsUser)
      cleanupFunc := clfunc }
    let cbuffer ← malloc.cells cmax
    let chdr := { chdr with buffer := cbuffer.toList, curr := 0, base := 0 }
    some { chdr with flags := chdr.flags ||| cbFlagsValid }

/-- `cbuf_destroy`. The array is freed, and so is the header when `cbuf_create` allocated
it. -/
def cbufDestroy (fuel : Nat) (chdr : CbufHeader) : Option (Outcome Bool) := do
  let events ←
    if !cbEmpty chdr && chdr.cleanupFunc then loop (resetPass chdr) fuel (chdr.base, [])
    else some []
  some ({ chdr with flags := chdr.flags &&& ~~~cbFlagsValid, buffer := [] }, true, events)

/-! ### The operations as steps of a machine -/

/-- A call of one of the operations. -/
inductive CbufOp where
  | enqueue (data : Data)
  | dequeue
  | peekqueue
  | reset
  | lookup (data : Data) (func : Data → Data → Int)

/-- The result of a call. -/
inductive CbufRet where
  | boolean (b : Bool)
  | pointer (data : Data)
  deriving DecidableEq

/-- A result and its events, as one output. -/
def Outcome.label {α : Type} (ret : α → CbufRet) (o : Outcome α) :
    CbufHeader × CbufRet × List Event :=
  (o.1, ret o.2.1, o.2.2)

/-- A call of one of the operations. -/
def cbufStep (fuel : Nat) (chdr : CbufHeader) :
    CbufOp → Option (CbufHeader × CbufRet × List Event)
  | .enqueue data => (cbufEnqueueDefault chdr data).map (Outcome.label .boolean)
  | .dequeue => (cbufDequeueDefault chdr).map (Outcome.label .pointer)
  | .peekqueue => (cbufPeekqueueDefault chdr).map (Outcome.label .pointer)
  | .reset => (cbufResetDefault fuel chdr).map (Outcome.label .boolean)
  | .lookup data func => (cbufLookupDefault fuel chdr data func).map (Outcome.label .pointer)

/-! ### The abstract queue -/

section Abstract
variable {capacity : Nat} (overwrite cleanup : Bool)

/-- The oldest item, `NULL` for an empty queue. -/
def oldest (q : Fifo Data capacity) : Data := q.items.head?.getD null

/-- The items that a lookup examines: all up to and with the first match. -/
def examined (func : Data → Data → Int) (data : Data) : List Data → List Data
  | [] => []
  | x :: rest => if func x data = 0 then [x] else x :: examined func data rest

/-- The operations on a bounded queue. A cleanup function is called on each item that the
queue itself drops. -/
def fifoStep (q : Fifo Data capacity) :
    CbufOp → Option (Fifo Data capacity × CbufRet × List Event)
  | .enqueue data =>
      some (q.enqueue overwrite data, .boolean true,
        if q.full && overwrite && cleanup then
          ((q.items ++ [data]).take 1).map Event.cleanup else [])
  | .dequeue => some (q.dequeue, .pointer (oldest q), [])
  | .peekqueue => some (q, .pointer (oldest q), [])
  | .reset =>
      some (Fifo.empty, .boolean true, if cleanup then q.items.map Event.cleanup else [])
  | .lookup data func =>
      some (q, .pointer ((q.items.find? fun x => func x data = 0).getD null),
        (examined func data q.items).map fun x => Event.lookup x data)

end Abstract

end MyTestFiles.CircBuffer
