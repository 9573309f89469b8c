import MyTestFiles.Bitlist.Bitlist

/-!
# `MyTestFiles.Bitlist.Vector`: vectors of bit lists

`bitlist_alloc_vect` asks for one block of memory and makes a bit list of each `bl+i`. The
block is a list of words. A cell is a `bitlist_t` at a place in the block: its state is the
words there, and all words that follow are within reach of its `bits`.

The member `bits` has no elements, so that `sizeof(bitlist_t)` is the size of the state. That
is the distance from one cell to the next.

* `vectBytes` is the size that is asked for, computed in a `size_t`. The product may wrap, and no
  object is larger than `objectMax`.
* `loadCell` and `storeCell` read and write the list at a cell. A list has no words of its own
  here: what it reaches through `bits` is the rest of the block, the cells behind it included.
* `bitlistAllocVect` initialises the cells from the first on, and each initialisation writes the
  state of its cell.
* `bitlistFreeVect` clears the states of the cells, from the first on, and the block then goes to
  `free`.
-/

set_option autoImplicit false

namespace MyTestFiles.Bitlist

open MyTestFiles.Lib

/-- `sizeof(bitlist_t)`, in words. -/
def cellElems : Nat := 5

/-- The words of a state. -/
def stateWords (state : BitlistState) : List Elem :=
  [BitVec.ofNat 32 state.maxElems, BitVec.ofNat 32 state.maxBits, BitVec.ofNat 32 state.baseBit,
    BitVec.ofNat 32 state.lastElem, BitVec.ofNat 32 state.lastBit]

/-- The list at `bl+i`. -/
def loadCell (memory : List Elem) (i : Nat) : Option BitlistT :=
  match memory.drop (cellElems * i) with
  | maxElems :: maxBits :: baseBit :: lastElem :: lastBit :: bits =>
      some
        { state :=
            { maxElems := maxElems.toNat
              maxBits := maxBits.toNat
              baseBit := baseBit.toNat
              lastElem := lastElem.toNat
              lastBit := lastBit.toNat }
          bits := bits }
  | _ => none

/-- The block after a write to the list at `bl+i`. -/
def storeCell (memory : List Elem) (i : Nat) (bl : BitlistT) : List Elem :=
  memory.take (cellElems * i) ++ (stateWords bl.state ++ bl.bits)

/-- An operation on the list at `bl+i`. -/
def onCell (f : BitlistT → Option BitlistT) (memory : List Elem) (i : Nat) :
    Option (List Elem) := do
  let bl ← loadCell memory i
  let bl ← f bl
  some (storeCell memory i bl)

/-- `cells * (sizeof(bitlist_state_t) + BITS_TO_ELEMS(bits) * sizeof(bitlist_elem_t))`, as a
`size_t` of 64 bits. -/
def vectBytes (bits cells : Int) : Nat := uint64 (cells * (20 + bitsToElems bits * 4))

/-- `PTRDIFF_MAX`: no object is larger. -/
def objectMax : Nat := 9223372036854775807

/-- `bitlist_alloc_vect`: the outer `none` is a fault, the inner one `NULL`. -/
def bitlistAllocVect (malloc : Malloc) (bits base cells : Int) : Option (Option (List Elem)) :=
  if objectMax < vectBytes bits cells then some none
  else
    match (malloc (vectBytes bits cells / 4)).map List.Vector.toList with
    | none => some none
    | some memory =>
        ((List.range cells.toNat).foldlM (onCell fun bl => bitlistClearall bl bits base)
          memory).map some

/-- The loop of `bitlist_free_vect`: the block that is given to `free`. -/
def bitlistFreeVect (memory : List Elem) (cells : Int) : Option (List Elem) :=
  (List.range cells.toNat).foldlM
    (onCell fun bl => some { bl with state := ⟨0, 0, 0, 0, 0⟩ }) memory

end MyTestFiles.Bitlist
