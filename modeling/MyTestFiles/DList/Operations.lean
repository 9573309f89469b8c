import MyTestFiles.Lib.Links
import MyTestFiles.Lib.Loop
import MyTestFiles.Lib.Run

/-!
# `MyTestFiles.DList.Operations`: the intrusive list of `MyDList.hpp`

A `DList` is known by the address of its `listHead` node, an object by its own address, and
`nodeOffset` leads from an object to the node inside it. The memory holds the two pointers
of every node. The loops run on fuel.

`seqStep` is the purpose of the component: the same operations on one sequence of nodes for
each list. It is defined only where a node that is inserted is on no list and a node that is
removed, or inserted next to, is on one.

* A list is a ring of nodes, and its own node is the sentinel of the ring. A node that is on no
  list has a null successor, and its predecessor is whatever it was.
* The node operations write pointers one after the other and read the memory as the writes before
  have left it, in the order of the source. No operation tests that its arguments are nodes.
* `dlistStep` is a call of one of the operations, and `constructAll` the memory after all
  constructors have run, which is where every run starts.
* `swap`, `moveList`, `foreach` and `isMember` are not steps of that machine. Each has its own
  statement.
-/

set_option autoImplicit false

namespace MyTestFiles.DList

open MyTestFiles.Lib

/-- A pointer. -/
abbrev Addr (w : Nat) := BitVec w

/-- The `m_next` and `m_prev` of every `DListNode`. -/
abbrev Mem (w : Nat) := Links (Addr w)

variable {w : Nat}

/-- The null pointer. -/
def null : Addr w := 0

/-! ### `DListNode` -/

/-- The constructor `DListNode ()`: `m_prev` stays as it is. -/
def constructNode (mem : Mem w) (n : Addr w) : Mem w := mem.setNext n null

/-- `isOnList`: the successor of the node is not null. -/
def isOnList (mem : Mem w) (n : Addr w) : Bool := mem.next n != null

/-- `insertAfter` of a node: the four stores, in order. -/
def insertAfterNode (mem : Mem w) (afterHere n : Addr w) : Mem w :=
  let next := mem.next afterHere
  let mem := mem.setNext n next
  let mem := mem.setPrev n afterHere
  let mem := mem.setNext afterHere n
  mem.setPrev next n

/-- `insertBefore` of a node: the four stores, in order. -/
def insertBeforeNode (mem : Mem w) (beforeHere n : Addr w) : Mem w :=
  let prev := mem.prev beforeHere
  let mem := mem.setNext n beforeHere
  let mem := mem.setPrev n prev
  let mem := mem.setNext prev n
  mem.setPrev beforeHere n

/-- `remove` of a node. Only its successor is cleared. -/
def removeNode (mem : Mem w) (n : Addr w) : Mem w :=
  let next := mem.next n
  let prev := mem.prev n
  let mem := mem.setPrev next prev
  let mem := mem.setNext prev next
  mem.setNext n null

/-! ### `DList` -/

/-- The constructor `DList ()`. -/
def construct (mem : Mem w) (list : Addr w) : Mem w :=
  let mem := constructNode mem list
  let mem := mem.setNext list list
  mem.setPrev list list

/-- The first node, or the sentinel of an empty list. -/
def getHeadNode (mem : Mem w) (list : Addr w) : Addr w := mem.next list

/-- The last node, or the sentinel of an empty list. -/
def getTailNode (mem : Mem w) (list : Addr w) : Addr w := mem.prev list

/-- The sentinel, at which the loops end. -/
def endOfList (list : Addr w) : Addr w := list

/-- `isEmpty` -/
def isEmpty (mem : Mem w) (list : Addr w) : Bool := mem.next list == endOfList list

/-- One pass of the loop of `removeAll`. The state is the memory and `n`. -/
def removeAllPass (list : Addr w) (s : Mem w × Addr w) : Option (Pass (Mem w × Addr w) (Mem w)) :=
  let (mem, n) := s
  if n ≠ endOfList list then
    let next := mem.next n
    some (.again (removeNode mem n, next))
  else some (.done mem)

/-- `removeAll`: every node is taken out, from the head on. -/
def removeAll (fuel : Nat) (mem : Mem w) (list : Addr w) : Option (Mem w) :=
  loop (removeAllPass list) fuel (mem, getHeadNode mem list)

/-- `moveList` of `list`, with `source` as its `sourceList`. -/
def moveList (mem : Mem w) (list source : Addr w) : Mem w :=
  let sourceHead := getHeadNode mem source
  if sourceHead ≠ endOfList source then
    let sourceTail := getTailNode mem source
    let beforeHere := list
    let prev := mem.prev beforeHere
    let mem := mem.setNext sourceTail beforeHere
    let mem := mem.setPrev sourceHead prev
    let mem := mem.setNext prev sourceHead
    mem.setPrev beforeHere sourceTail
  else mem

section Object
variable (nodeOffset : Addr w)

/-- The node inside an object. -/
def getNode (t : Addr w) : Addr w := t + nodeOffset

/-- The object around a node. -/
def getObject (n : Addr w) : Addr w := n - nodeOffset

/-- `Null ()`, which is not the null pointer. -/
def nullObject (list : Addr w) : Addr w := getObject nodeOffset list

/-- `addHead` -/
def addHead (mem : Mem w) (list t : Addr w) : Mem w :=
  insertAfterNode mem list (getNode nodeOffset t)

/-- `addTail` -/
def addTail (mem : Mem w) (list t : Addr w) : Mem w :=
  insertBeforeNode mem list (getNode nodeOffset t)

/-- `insertAfter` of an object. -/
def insertAfter (mem : Mem w) (afterHere newObject : Addr w) : Mem w :=
  insertAfterNode mem (getNode nodeOffset afterHere) (getNode nodeOffset newObject)

/-- `insertBefore` of an object. -/
def insertBefore (mem : Mem w) (beforeHere newObject : Addr w) : Mem w :=
  insertBeforeNode mem (getNode nodeOffset beforeHere) (getNode nodeOffset newObject)

/-- `remove` of an object. The list is not an argument. -/
def remove (mem : Mem w) (t : Addr w) : Mem w := removeNode mem (getNode nodeOffset t)

/-- `getPrev`: the object before another, which is `Null ()` before the first. -/
def getPrev (mem : Mem w) (t : Addr w) : Addr w :=
  getObject nodeOffset (mem.prev (getNode nodeOffset t))

/-- `swap`. The predecessor of the first item is the `Null ()` of the list. -/
def swap (mem : Mem w) (item1 item2 : Addr w) : Mem w :=
  if item1 = item2 then mem
  else
    let prev1 := getPrev nodeOffset mem item1
    let prev2 := getPrev nodeOffset mem item2
    if prev1 = item2 then
      -- item2 is immediately before item1
      let mem := remove nodeOffset mem item2
      insertAfter nodeOffset mem item1 item2
    else if prev2 = item1 then
      -- item1 is immediately before item2
      let mem := remove nodeOffset mem item1
      insertAfter nodeOffset mem item2 item1
    else
      let mem := remove nodeOffset mem item1
      let mem := remove nodeOffset mem item2
      let mem := insertAfter nodeOffset mem prev1 item2
      insertAfter nodeOffset mem prev2 item1

/-- `removeHead`: the object that was removed, or `Null ()` where the list is empty. -/
def removeHead (mem : Mem w) (list : Addr w) : Mem w × Addr w :=
  let t := getObject nodeOffset (mem.next list)
  if t ≠ nullObject nodeOffset list then (removeNode mem (mem.next list), t) else (mem, t)

/-- One pass of the loop of `foreach`. The state is `n` and what the callback keeps behind
`context`. -/
def foreachPass {κ : Type} (mem : Mem w) (list : Addr w) (f : Addr w → κ → Int × κ)
    (s : Addr w × κ) : Option (Pass (Addr w × κ) (Int × κ)) :=
  let (n, context) := s
  if n ≠ endOfList list then
    let (result, context) := f (getObject nodeOffset n) context
    if result ≠ 0 then some (.done (result, context))
    else some (.again (mem.next n, context))
  else some (.done (0, context))

/-- `foreach`: the first result of `f` that is not zero, or zero. -/
def foreach {κ : Type} (fuel : Nat) (mem : Mem w) (list : Addr w) (f : Addr w → κ → Int × κ)
    (context : κ) : Option (Int × κ) :=
  loop (foreachPass nodeOffset mem list f) fuel (getHeadNode mem list, context)

/-- One pass of the loop of `isMember`. -/
def isMemberPass (mem : Mem w) (list t n : Addr w) : Option (Pass (Addr w) Bool) :=
  if n ≠ endOfList list then
    if getObject nodeOffset n = t then some (.done true) else some (.again (mem.next n))
  else some (.done false)

/-- `isMember`: whether the walk along the list meets the object. -/
def isMember (fuel : Nat) (mem : Mem w) (list t : Addr w) : Option Bool :=
  loop (isMemberPass nodeOffset mem list t) fuel (getHeadNode mem list)

end Object

/-! ### The operations as steps of a machine -/

/-- A call of one of the operations. Lists are given by their `listHead`, nodes by their
object. -/
inductive DListOp (w : Nat) where
  | addHead (list t : Addr w)
  | addTail (list t : Addr w)
  | insertAfter (afterHere newObject : Addr w)
  | insertBefore (beforeHere newObject : Addr w)
  | remove (t : Addr w)
  | removeHead (list : Addr w)
  | removeAll (list : Addr w)

/-- One operation. The output is the returned object, if there is one. -/
def dlistStep (nodeOffset : Addr w) (fuel : Nat) (mem : Mem w) :
    DListOp w → Option (Mem w × Option (Addr w))
  | .addHead list t => some (addHead nodeOffset mem list t, none)
  | .addTail list t => some (addTail nodeOffset mem list t, none)
  | .insertAfter a t => some (insertAfter nodeOffset mem a t, none)
  | .insertBefore b t => some (insertBefore nodeOffset mem b t, none)
  | .remove t => some (remove nodeOffset mem t, none)
  | .removeHead list =>
      let (mem, t) := removeHead nodeOffset mem list
      some (mem, some t)
  | .removeAll list => (removeAll fuel mem list).map fun mem => (mem, none)

/-- The memory after the constructors of all objects. -/
def constructAll (objects : Objects (Addr w) null) (mem : Mem w) : Mem w :=
  objects.heads.foldl construct (objects.nodes.foldl constructNode mem)

/-! ### The abstract sequences -/

section Abstract
variable (nodeOffset : Addr w) (objects : Objects (Addr w) null)

/-- A node of the collection that is on no list. -/
def Insertable (seq : Addr w → List (Addr w)) (n : Addr w) : Prop :=
  n ∈ objects.nodes ∧ ¬ OnSome objects seq n

instance (seq : Addr w → List (Addr w)) (n : Addr w) :
    Decidable (Insertable objects seq n) :=
  inferInstanceAs (Decidable (_ ∧ _))

/-- The operations on the sequences of nodes. -/
def seqStep (seq : Addr w → List (Addr w)) :
    DListOp w → Option ((Addr w → List (Addr w)) × Option (Addr w))
  | .addHead list t =>
      let n := getNode nodeOffset t
      if list ∈ objects.heads ∧ Insertable objects seq n then
        some (Function.update seq list (n :: seq list), none)
      else none
  | .addTail list t =>
      let n := getNode nodeOffset t
      if list ∈ objects.heads ∧ Insertable objects seq n then
        some (Function.update seq list (seq list ++ [n]), none)
      else none
  | .insertAfter afterHere t =>
      let a := getNode nodeOffset afterHere
      let n := getNode nodeOffset t
      if OnSome objects seq a ∧ Insertable objects seq n then
        some (fun list => putAfter a n (seq list), none)
      else none
  | .insertBefore beforeHere t =>
      let b := getNode nodeOffset beforeHere
      let n := getNode nodeOffset t
      if OnSome objects seq b ∧ Insertable objects seq n then
        some (fun list => putBefore b n (seq list), none)
      else none
  | .remove t =>
      let n := getNode nodeOffset t
      if OnSome objects seq n then some (fun list => (seq list).erase n, none) else none
  | .removeHead list =>
      if list ∈ objects.heads then
        some (Function.update seq list (seq list).tail,
          some (getObject nodeOffset ((seq list).headD list)))
      else none
  | .removeAll list =>
      if list ∈ objects.heads then some (Function.update seq list [], none) else none

/-- What `foreach` does on a sequence of objects: call `f` on each, up to the first result
that is not zero. -/
def visit {κ : Type} (f : Addr w → κ → Int × κ) : List (Addr w) → κ → Int × κ
  | [], context => (0, context)
  | t :: ts, context =>
      let (result, context) := f t context
      if result ≠ 0 then (result, context) else visit f ts context

end Abstract

end MyTestFiles.DList
