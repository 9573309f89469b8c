import MyTestFiles.DList.Operations

/-!
# `MyTestFiles.DList.Counted`: the counted list of `MyDList.hpp`

A `CountedDList` is a `DList` with `m_nodeCount`. It has its own `addHead`, `addTail`,
`removeHead` and `remove`; the other operations are those of `DList`.

The source as it stands does not compile once the class is used: `remove` is declared both
static and not, `removeHead` passes an argument that its base does not take, and `remove`
calls `remove (n)`, which its own declaration hides. Each of them is read as the call of the
base class that it visibly means.

* `countedStep` is a call of one of the public operations, the inherited ones included. The
  pointers are changed by the definitions of `DList.Operations`, and only the four operations of
  the class touch a count.
* `countedSeqStep` says what the calls are for, on sequences. It is defined where the caller meets
  the rules of the class: a node is removed from the list that it is on.
-/

set_option autoImplicit false

namespace MyTestFiles.DList

open MyTestFiles.Lib

/-- The pointers of all nodes, and the `m_nodeCount` of each list. -/
structure CountedMem (w : Nat) where
  links : Mem w
  nodeCount : Addr w → BitVec 32

section Counted
variable {w : Nat}

/-- `m_nodeCount++` -/
def CountedMem.increment (mem : CountedMem w) (list : Addr w) : CountedMem w :=
  { mem with nodeCount := Function.update mem.nodeCount list (mem.nodeCount list + 1) }

/-- `m_nodeCount--` -/
def CountedMem.decrement (mem : CountedMem w) (list : Addr w) : CountedMem w :=
  { mem with nodeCount := Function.update mem.nodeCount list (mem.nodeCount list - 1) }

/-- An operation of the base class. -/
def CountedMem.withLinks (mem : CountedMem w) (links : Mem w) : CountedMem w :=
  { mem with links := links }

/-- The memory after the constructors of all objects. -/
def constructCounted (objects : Objects (Addr w) null) (mem : Mem w) : CountedMem w where
  links := constructAll objects mem
  nodeCount _ := 0

namespace CountedDList
variable (nodeOffset : Addr w) (mem : CountedMem w)

/-- `addHead`: the count goes up. -/
def addHead (list t : Addr w) : CountedMem w :=
  let mem := mem.withLinks (DList.addHead nodeOffset mem.links list t)
  mem.increment list

/-- `addTail`: the count goes up. -/
def addTail (list t : Addr w) : CountedMem w :=
  let mem := mem.withLinks (DList.addTail nodeOffset mem.links list t)
  mem.increment list

/-- `removeHead`: the count goes down where an object was removed. -/
def removeHead (list : Addr w) : CountedMem w × Addr w :=
  let (links, t) := DList.removeHead nodeOffset mem.links list
  let mem := mem.withLinks links
  if t ≠ nullObject nodeOffset list then (mem.decrement list, t) else (mem, t)

/-- `remove`: the count goes down where the node is on a list, whichever list that is. -/
def remove (list t : Addr w) : CountedMem w :=
  let n := getNode nodeOffset t
  let mem := if mem.links.next n ≠ null then mem.decrement list else mem
  mem.withLinks (removeNode mem.links n)

end CountedDList

/-! ### The operations as steps of a machine -/

/-- A call of one of the public operations. -/
inductive CountedOp (w : Nat) where
  | addHead (list t : Addr w)
  | addTail (list t : Addr w)
  | removeHead (list : Addr w)
  | remove (list t : Addr w)
  | insertAfter (afterHere newObject : Addr w)
  | insertBefore (beforeHere newObject : Addr w)
  | removeAll (list : Addr w)
  | swap (item1 item2 : Addr w)

/-- One operation. The output is the returned object, if there is one. -/
def countedStep (nodeOffset : Addr w) (fuel : Nat) (mem : CountedMem w) :
    CountedOp w → Option (CountedMem w × Option (Addr w))
  | .addHead list t => some (CountedDList.addHead nodeOffset mem list t, none)
  | .addTail list t => some (CountedDList.addTail nodeOffset mem list t, none)
  | .removeHead list =>
      let (mem, t) := CountedDList.removeHead nodeOffset mem list
      some (mem, some t)
  | .remove list t => some (CountedDList.remove nodeOffset mem list t, none)
  | .insertAfter a t => some (mem.withLinks (insertAfter nodeOffset mem.links a t), none)
  | .insertBefore b t => some (mem.withLinks (insertBefore nodeOffset mem.links b t), none)
  | .removeAll list =>
      (removeAll fuel mem.links list).map fun links => (mem.withLinks links, none)
  | .swap item1 item2 => some (mem.withLinks (swap nodeOffset mem.links item1 item2), none)

/-! ### The abstract sequences -/

section Abstract
variable (nodeOffset : Addr w) (objects : Objects (Addr w) null)

/-- Two nodes on one list. -/
def OnSameList (seq : Addr w → List (Addr w)) (n₁ n₂ : Addr w) : Prop :=
  ∃ list ∈ objects.heads, n₁ ∈ seq list ∧ n₂ ∈ seq list

instance (seq : Addr w → List (Addr w)) (n₁ n₂ : Addr w) :
    Decidable (OnSameList objects seq n₁ n₂) :=
  inferInstanceAs (Decidable (∃ list ∈ objects.heads, n₁ ∈ seq list ∧ n₂ ∈ seq list))

local instance lawfulBEqAddr : LawfulBEq (Addr w) := inferInstance

/-- The operations on the sequences of nodes. A node is removed from its own list, and the two
nodes of a swap are on one list. -/
def countedSeqStep (seq : Addr w → List (Addr w)) :
    CountedOp w → Option ((Addr w → List (Addr w)) × Option (Addr w))
  | .addHead list t => seqStep nodeOffset objects seq (.addHead list t)
  | .addTail list t => seqStep nodeOffset objects seq (.addTail list t)
  | .removeHead list => seqStep nodeOffset objects seq (.removeHead list)
  | .remove list t =>
      if list ∈ objects.heads ∧ getNode nodeOffset t ∈ seq list then
        seqStep nodeOffset objects seq (.remove t)
      else none
  | .insertAfter a t => seqStep nodeOffset objects seq (.insertAfter a t)
  | .insertBefore b t => seqStep nodeOffset objects seq (.insertBefore b t)
  | .removeAll list => seqStep nodeOffset objects seq (.removeAll list)
  | .swap item1 item2 =>
      let n₁ := getNode nodeOffset item1
      let n₂ := getNode nodeOffset item2
      if OnSameList objects seq n₁ n₂ then
        some (fun list => (seq list).map (Equiv.swap n₁ n₂), none)
      else none

end Abstract
end Counted

end MyTestFiles.DList
