import MyTestFiles.Bitlist.Text
import MyTestFiles.Lib.Run

/-!
# `MyTestFiles.Bitlist.Pool`: operations on several bit lists

A `Pool` holds the list at each address, so that two arguments of an operation may be the
same list. `poolStep` performs one call of an operation on the lists of one geometry.

* The boolean operations are one loop over the words with the operation on two words as a
  parameter. Each word of the result is written to the pool at once, and the next words of the
  operands are read from what is there then.
* The number of words is that of the first operand. The geometry of the second one is not compared
  with it, and an access outside its words is a fault.
* `poolStep` gives every new list the size and the base of the run, so that the lists of a run
  have one geometry.

A `PoolOp` is a call with its arguments. The arguments become `int`s when they are passed, so a
position of any size may be asked for, and the output of a step is the result of the parser where
that is what was called.
-/

set_option autoImplicit false

namespace MyTestFiles.Bitlist

open MyTestFiles.Lib

/-- The lists in memory, by address. -/
abbrev Pool := Nat → Option BitlistT

/-- `memcpy(to, from, ..)` of the state and of the words it announces. -/
def bitlistCopy (pool : Pool) (source target : Nat) : Option Pool := do
  let a ← pool source
  let b ← pool target
  let n := a.state.maxElems
  if n ≤ a.bits.length ∧ n ≤ b.bits.length then
    some (Function.update pool target
      (some { state := a.state, bits := a.bits.take n ++ b.bits.drop n }))
  else none

/-- One round of the loop in `bitlist_or` and its siblings. -/
def combineElem (f : Elem → Elem → Elem) (a b c : Nat) (pool : Pool) (i : Nat) : Option Pool := do
  let x ← (← pool a).bits[i]?
  let y ← (← pool b).bits[i]?
  let bl ← pool c
  let bits ← storeElem bl.bits i (f x y)
  some (Function.update pool c (some { bl with bits := bits }))

/-- The shape of the boolean operations: `c` takes the state of `a`, unless it is one of
the operands, and then its words one after the other. -/
def bitlistCombine (f : Elem → Elem → Elem) (pool : Pool) (a b c : Nat) : Option Pool := do
  let state := (← pool a).state
  let _ ← pool b
  let bl ← pool c
  let pool :=
    if c ≠ a ∧ c ≠ b then Function.update pool c (some { bl with state := state }) else pool
  (List.range state.maxElems).foldlM (combineElem f a b c) pool

/-- `bitlist_or` -/
def bitlistOr : Pool → Nat → Nat → Nat → Option Pool := bitlistCombine fun x y => x ||| y

/-- `bitlist_and` -/
def bitlistAnd : Pool → Nat → Nat → Nat → Option Pool := bitlistCombine fun x y => x &&& y

/-- `bitlist_xor` -/
def bitlistXor : Pool → Nat → Nat → Nat → Option Pool := bitlistCombine fun x y => x ^^^ y

/-- `bitlist_and_not` -/
def bitlistAndNot : Pool → Nat → Nat → Nat → Option Pool :=
  bitlistCombine fun x y => x &&& ~~~y

/-- `bitlist_not` has one operand. -/
def bitlistNot (pool : Pool) (a b : Nat) : Option Pool :=
  bitlistCombine (fun x _ => ~~~x) pool a a b

/-! ### The operations as steps of a machine -/

/-- A call of one of the operations that change bit lists. Lists are given by their
addresses. -/
inductive PoolOp where
  | alloc (bl : Nat) (malloc : Malloc)
  | set (bl : Nat) (bit : Int)
  | clear (bl : Nat) (bit : Int)
  | setall (bl : Nat)
  | clearall (bl : Nat)
  | setContiguous (bl : Nat) (bit bits : Int)
  | clearContiguous (bl : Nat) (bit bits : Int)
  | copy (source target : Nat)
  | or (a b c : Nat)
  | and (a b c : Nat)
  | xor (a b c : Nat)
  | not (a b : Nat)
  | andNot (a b c : Nat)
  | fromString (bl : Nat) (malloc : Bool) (list : List Char)

/-- An operation on the list at an address. -/
def updateAt (pool : Pool) (addr : Nat) (f : BitlistT → Option BitlistT) : Option Pool := do
  let bl ← f (← pool addr)
  some (Function.update pool addr (some bl))

/-- One call, on lists of `bits` bits from `base` on. An argument becomes an `int` when it
is passed. The output is the result of `bitlist_from_string`. -/
def poolStep (bits base : Int) (pool : Pool) : PoolOp → Option (Pool × Option Bool)
  | .alloc bl malloc => do
      match ← bitlistAlloc malloc bits base with
      | none => some (pool, none)
      | some list => some (Function.update pool bl (some list), none)
  | .set bl bit => (updateAt pool bl fun bl => bitlistSet bl (int32 bit)).map (·, none)
  | .clear bl bit => (updateAt pool bl fun bl => bitlistClear bl (int32 bit)).map (·, none)
  | .setall bl => (updateAt pool bl fun bl => bitlistSetall bl bits base).map (·, none)
  | .clearall bl => (updateAt pool bl fun bl => bitlistClearall bl bits base).map (·, none)
  | .setContiguous bl bit n =>
      (updateAt pool bl fun bl => bitlistSetContiguous bl (int32 bit) (int32 n)).map (·, none)
  | .clearContiguous bl bit n =>
      (updateAt pool bl fun bl => bitlistClearContiguous bl (int32 bit) (int32 n)).map (·, none)
  | .copy source target => (bitlistCopy pool source target).map (·, none)
  | .or a b c => (bitlistOr pool a b c).map (·, none)
  | .and a b c => (bitlistAnd pool a b c).map (·, none)
  | .xor a b c => (bitlistXor pool a b c).map (·, none)
  | .not a b => (bitlistNot pool a b).map (·, none)
  | .andNot a b c => (bitlistAndNot pool a b c).map (·, none)
  | .fromString bl malloc list => do
      let (list', result, _) ← bitlistFromString malloc (← pool bl) list
      some (Function.update pool bl (some list'), some result)

/-- No list is allocated. -/
def emptyPool : Pool := fun _ => none

end MyTestFiles.Bitlist
