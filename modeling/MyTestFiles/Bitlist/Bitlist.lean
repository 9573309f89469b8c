import MyTestFiles.Lib.CInt
import MyTestFiles.Lib.Loop
import MyTestFiles.Lib.WordBits

/-!
# `MyTestFiles.Bitlist.Bitlist`: the bit lists of `bitlist.c`

A `BitlistT` is a `bitlist_t` with the words that follow it in memory. An `int` is an `Int`
wrapped by `int32`, a `uint32` field is a natural number, and a comparison of the two is
unsigned. An access outside the words is a fault (`none`).

* Every operation starts with its range check, `bitlist_validbit` or `bitlist_validrange`. The
  checks compute the position relative to the base in an `int`, which may wrap, and compare it
  with the size as an unsigned number.
* A bit that fails the check is ignored by the operations that write, answered FALSE by
  `bitlist_test`, and answered `BITLIST_INVALID` by the cursor. The message to the log is left
  out.
* The operations on words, `memset` and `memcpy` among them, fault where they leave the words of
  the list. A negative count is a huge one.
* The cursor is the pair `lastElem` and `lastBit` in the state of the list, so the operations that
  move it return the list. The loops over the words recurse on fuel that is their number of words.
* `bitlist_set` and `bitlist_clear` are one definition with the operation on the word as a
  parameter, and so are the two operations on a block of words.
-/

set_option autoImplicit false

namespace MyTestFiles.Bitlist

open MyTestFiles.Lib

/-- `bitlist_elem_t` -/
abbrev Elem := BitVec 32

/-- `BITS_PER_ELEM` -/
def bitsPerElem : Int := 32

/-- `BITS_TO_ELEMS`, on an `int` -/
def bitsToElems (bits : Int) : Int :=
  int32 ((int32 (int32 (bits + bitsPerElem) - 1)).tdiv bitsPerElem)

/-- `BIT_TO_ELEM` -/
def bitToElem (bit : Int) : Int := bit.tdiv bitsPerElem

/-- `BIT_TO_BIT`: the low five bits. -/
def bitToBit (bit : Int) : Nat := (bit % bitsPerElem).toNat

/-- `BIT_TO_MASK` -/
def bitToMask (bit : Int) : Elem := 1#32 <<< bitToBit bit

/-- `BITLIST_INVALID` -/
def bitlistInvalid : Int := -1

/-- `bitlist_state_t` -/
structure BitlistState where
  maxElems : Nat
  maxBits : Nat
  baseBit : Nat
  lastElem : Nat
  lastBit : Nat
  deriving DecidableEq

/-- `bitlist_t` -/
structure BitlistT where
  state : BitlistState
  bits : List Elem
  deriving DecidableEq

/-- `bl->bits[elem]` as a value. -/
def loadElem (bits : List Elem) (elem : Int) : Option Elem :=
  if elem < 0 then none else bits[elem.toNat]?

/-- `bl->bits[elem] = x` -/
def storeElem (bits : List Elem) (elem : Int) (x : Elem) : Option (List Elem) :=
  if elem < 0 then none
  else if elem.toNat < bits.length then some (bits.set elem.toNat x) else none

/-- `memset(&bl->bits[elem], .., count * sizeof(bitlist_elem_t))`, where all bytes of `x`
are the same. A negative count is a huge size. -/
def memsetElems (bits : List Elem) (elem count : Int) (x : Elem) : Option (List Elem) :=
  if elem < 0 ∨ count < 0 then none
  else if elem.toNat + count.toNat ≤ bits.length then
    some (fill bits elem.toNat count.toNat x)
  else none

/-- `memcpy(&to->bits[elem], &from->bits[first], count * sizeof(bitlist_elem_t))` between two
lists, from `source` to `target`. -/
def memcpyElems (target : List Elem) (elem : Int) (source : List Elem) (first count : Int) :
    Option (List Elem) :=
  if elem < 0 ∨ first < 0 ∨ count < 0 then none
  else if elem.toNat + count.toNat ≤ target.length ∧ first.toNat + count.toNat ≤ source.length then
    some (splice target elem.toNat ((source.drop first.toNat).take count.toNat))
  else none

/-! ### One list -/

/-- `bitlist_validbit`, without the message to the log. -/
def bitlistValidbit (bl : BitlistT) (bit : Int) : Bool :=
  !(bit < 0 || uint32 bit ≥ bl.state.maxBits)

/-- `bitlist_validrange`: the check of the two ends of a block. -/
def bitlistValidrange (bl : BitlistT) (bit bits : Int) : Bool :=
  bitlistValidbit bl (int32 (bit - bl.state.baseBit)) &&
    bitlistValidbit bl (int32 (bit + bits - bl.state.baseBit - 1))

/-- `bitlist_test` -/
def bitlistTest (bl : BitlistT) (bit : Int) : Option Bool :=
  let bit := int32 (bit - bl.state.baseBit)
  if !bitlistValidbit bl bit then some false
  else do
    let elem ← loadElem bl.bits (bitToElem bit)
    some (elem &&& bitToMask bit != 0)

/-- The shape of `bitlist_set` and `bitlist_clear`: update the word of a valid bit. -/
def bitlistUpdate (f : Elem → Elem → Elem) (bl : BitlistT) (bit : Int) : Option BitlistT :=
  let bit := int32 (bit - bl.state.baseBit)
  if bitlistValidbit bl bit then do
    let elem ← loadElem bl.bits (bitToElem bit)
    let bits ← storeElem bl.bits (bitToElem bit) (f elem (bitToMask bit))
    some { bl with bits := bits }
  else some bl

/-- `bitlist_set` -/
def bitlistSet : BitlistT → Int → Option BitlistT :=
  bitlistUpdate fun elem mask => elem ||| mask

/-- `bitlist_clear` -/
def bitlistClear : BitlistT → Int → Option BitlistT :=
  bitlistUpdate fun elem mask => elem &&& ~~~mask

/-- The state that `bitlist_setall` and `bitlist_clearall` write. -/
def freshState (bits base : Int) : BitlistState where
  maxElems := uint32 (bitsToElems bits)
  maxBits := uint32 bits
  baseBit := uint32 base
  lastElem := 0
  lastBit := 0

/-- `bitlist_setall`: all bits up to the size are set, and the padding bits of the last word
cleared. -/
def bitlistSetall (bl : BitlistT) (bits base : Int) : Option BitlistT := do
  let state := freshState bits base
  let words ← memsetElems bl.bits 0 state.maxElems (~~~0)
  -- Clear overflow bits in last element
  if bitToBit bits ≠ 0 then
    let last := (uint32 ((state.maxElems : Int) - 1) : Int)
    let elem ← loadElem words last
    let words ← storeElem words last (elem &&& (bitToMask bits - 1))
    some { state := state, bits := words }
  else some { state := state, bits := words }

/-- `bitlist_clearall` -/
def bitlistClearall (bl : BitlistT) (bits base : Int) : Option BitlistT := do
  let state := freshState bits base
  let words ← memsetElems bl.bits 0 state.maxElems 0
  some { state := state, bits := words }

/-- The shape of `bitlist_set_contiguous` and `bitlist_clear_contiguous`: fill the words of
a valid block whose start and length are multiples of 32. The start is unsigned. -/
def bitlistFillContiguous (x : Elem) (bl : BitlistT) (bit bits : Int) : Option BitlistT :=
  if !bitlistValidrange bl bit bits then some bl
  else if uint32 (bit - bl.state.baseBit) % 32 ≠ 0 then some bl
  else if bits.tmod bitsPerElem ≠ 0 then some bl
  else do
    let words ← memsetElems bl.bits (bitToElem (uint32 (bit - bl.state.baseBit)))
      (bitsToElems bits) x
    some { bl with bits := words }

/-- `bitlist_set_contiguous` -/
def bitlistSetContiguous : BitlistT → Int → Int → Option BitlistT :=
  bitlistFillContiguous (~~~0)

/-- `bitlist_clear_contiguous` -/
def bitlistClearContiguous : BitlistT → Int → Int → Option BitlistT :=
  bitlistFillContiguous 0

/-! ### Blocks of two lists -/

/-- `bitlist_copy_from_position`: the list `to` afterwards. -/
def bitlistCopyFromPosition (source target : BitlistT) (bit bits : Int) : Option BitlistT :=
  if !bitlistValidrange source bit bits then some target
  else if !bitlistValidbit target (int32 (bits - 1)) then some target
  else if uint32 (bit - source.state.baseBit) % 32 ≠ 0 then some target
  else if bits.tmod bitsPerElem ≠ 0 then some target
  else do
    let words ← memcpyElems target.bits 0
      source.bits (bitToElem (uint32 (bit - source.state.baseBit))) (bitsToElems bits)
    some { target with bits := words }

/-- `bitlist_copy_in_position`: the list `to` afterwards. The start is a multiple of 32 from
the first bit of `from` on. -/
def bitlistCopyInPosition (source target : BitlistT) (bit bits : Int) : Option BitlistT :=
  if !bitlistValidbit source (int32 (bits - 1)) then some target
  else if !bitlistValidrange target bit bits then some target
  else if uint32 (bit - source.state.baseBit) % 32 ≠ 0 then some target
  else if bits.tmod bitsPerElem ≠ 0 then some target
  else do
    let words ← memcpyElems target.bits (bitToElem (uint32 (bit - target.state.baseBit)))
      source.bits 0 (bitsToElems bits)
    some { target with bits := words }

/-! ### The cursor -/

/-- `while (bit < BITS_PER_ELEM) { if (bits & (1 << bit)) goto found; bit++; }`, with `n`
bits left to look at. -/
def scanBits (bits : Elem) : Nat → Nat → Nat
  | 0, bit => bit
  | n + 1, bit => if bits &&& (1#32 <<< bit) ≠ 0 then bit else scanBits bits n (bit + 1)

/-- One pass of the `for` loop of `bitlist_find_bit`. The state is `elem` and `bit`. -/
def findPass (bl : BitlistT) (s : Nat × Nat) : Option (Pass (Nat × Nat) (Nat × Nat)) :=
  let (elem, bit) := s
  if elem < bl.state.maxElems then
    if bit ≥ 32 then some (.again (elem + 1, 0))
    else do
      let bits ← bl.bits[elem]?
      if bits = 0 then some (.again (elem + 1, 0))
      else
        let bit := scanBits bits (32 - bit) bit
        if bit < 32 then some (.done (elem, bit)) else some (.again (elem + 1, 0))
  else some (.done (elem, bit))

/-- The steps from the label `found` on. -/
def findFound (bl : BitlistT) (elem bit : Nat) : BitlistT × Int :=
  let bl := { bl with state := { bl.state with lastElem := elem, lastBit := bit } }
  if elem ≥ bl.state.maxElems then (bl, bitlistInvalid)
  else
    let bit := int32 (elem * bitsPerElem + bit)
    if uint32 bit ≥ bl.state.maxBits then
      -- Last element has extra bits set!
      ({ bl with state := { bl.state with lastElem := bl.state.maxElems } }, bitlistInvalid)
    else (bl, int32 (bit + bl.state.baseBit))

/-- The loop looks at each word once. -/
def findFuel (bl : BitlistT) : Nat := bl.state.maxElems + 1

/-- `bitlist_find_bit`: from the first word, or from the bit behind the cursor. -/
def bitlistFindBit (bl : BitlistT) (first : Bool) : Option (BitlistT × Int) :=
  if first then do
    let (elem, bit) ← loop (findPass bl) (findFuel bl) (0, 0)
    some (findFound bl elem bit)
  else if bl.state.lastElem ≥ bl.state.maxElems then some (bl, bitlistInvalid)
  else do
    let (elem, bit) ← loop (findPass bl) (findFuel bl)
      (bl.state.lastElem, uint32 ((bl.state.lastBit : Int) + 1))
    some (findFound bl elem bit)

/-- `bitlist_find_next` -/
def bitlistFindNext (bl : BitlistT) : Option (BitlistT × Int) := bitlistFindBit bl false

/-- `bitlist_find_first` -/
def bitlistFindFirst (bl : BitlistT) : Option (BitlistT × Int) := bitlistFindBit bl true

/-- The cursor on a bit. -/
def setCursor (bl : BitlistT) (bit : Int) : BitlistT :=
  { bl with state := { bl.state with
      lastElem := uint32 (bitToElem bit)
      lastBit := bitToBit bit } }

/-- `bitlist_find_after`: the cursor is put on the bit, and the search goes on behind it. -/
def bitlistFindAfter (bl : BitlistT) (bit : Int) : Option (BitlistT × Int) :=
  let bit := int32 (bit - bl.state.baseBit)
  if !bitlistValidbit bl bit then some (bl, bitlistInvalid)
  else bitlistFindBit (setCursor bl bit) false

/-! ### Observers of whole words -/

/-- The loop over the bits of one word in `bitlist_count`. -/
def countBits (bits : Elem) (count : Int) : Int :=
  (List.range 32).foldl
    (fun count bit => int32 (count + if bits &&& (1#32 <<< bit) ≠ 0 then 1 else 0)) count

/-- `bitlist_count`, of all words with their padding bits. -/
def bitlistCount (bl : BitlistT) : Option Int :=
  (List.range bl.state.maxElems).foldlM
    (fun count elem => do
      let bits ← bl.bits[elem]?
      some (countBits bits count)) 0

/-- `bitlist_anybit_set` -/
def bitlistAnybitSet (bl : BitlistT) : Option Bool :=
  (List.range bl.state.maxElems).anyM fun elem => do
    let bits ← bl.bits[elem]?
    some (bits != 0)

/-- `bitlist_equal`, for as many words as the first list has. -/
def bitlistEqual (a b : BitlistT) : Option Bool :=
  (List.range a.state.maxElems).allM fun i => do
    let x ← a.bits[i]?
    let y ← b.bits[i]?
    some (x == y)

/-! ### Allocation -/

/-- What `malloc` returns for that many words after the state, `none` for `NULL`. -/
abbrev Malloc := (elems : Nat) → Option (List.Vector Elem elems)

/-- `bitlist_alloc`: the outer `none` is a fault, the inner one `NULL`. A negative number
of words asks for more than the address space. -/
def bitlistAlloc (malloc : Malloc) (bits base : Int) : Option (Option BitlistT) :=
  let elems := bitsToElems bits
  if elems < 0 then some none
  else
    match malloc elems.toNat with
    | none => some none
    | some block =>
        -- the state holds what was there before until `bitlist_clearall` writes it
        (bitlistClearall ⟨freshState 0 0, block.toList⟩ bits base).map some

end MyTestFiles.Bitlist
