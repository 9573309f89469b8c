import MyTestFiles.Bitlist.Bitlist

/-!
# `MyTestFiles.Proofs.Bitlist.Basic`: a bit list is a set of positions

`WellFormed` is what every constructor of a bit list establishes. On such a list
`bitlist_validbit` is the range check that it is meant to be (`bitlistValidbit_iff`), and
`bitlist_test` reads one bit of the words (`bitlistTest_eq`). `setPositions` lists the
positions where it answers TRUE.

The source computes with `int`s and counts bits from the base of the list. The lemmas on `natCast`
say that for offsets that are natural numbers the conversions and the word indices are what they
look like, and everything further up works with natural offsets.

* `WellFormed` asks for as many words as the size needs, and for a size of at most `2 ^ 31`. The
  padding bits of the last word are not mentioned, since `bitlist_test` never sees them.
* A position is valid where its offset from the base is below the size (`exists_offset`). The
  offset is computed in an `int`, and `int32_position` says that for positions of the list the
  computation does not wrap in a way that matters.
* `setPositions` is the view of a list that most results use: an ascending list of positions, each
  once.
-/

set_option autoImplicit false

namespace MyTestFiles.Proofs.Bitlist

open MyTestFiles.Lib
open MyTestFiles.Bitlist

/-- A list with as many words as its size needs, and room for them. -/
structure WellFormed (bl : BitlistT) : Prop where
  elems : bl.state.maxElems = (bl.state.maxBits + 31) / 32
  room : bl.state.maxElems ≤ bl.bits.length
  maxBits_le : bl.state.maxBits ≤ 2147483648

section Offsets
variable {bl : BitlistT}

/-- The word of an offset. -/
@[simp] theorem bitToElem_natCast (o : Nat) : bitToElem o = (o / 32 : Nat) := by
  simp only [bitToElem, bitsPerElem]
  rw [Int.tdiv_eq_ediv_of_nonneg (by omega)]
  rfl

/-- The bit of an offset in its word. -/
@[simp] theorem bitToBit_natCast (o : Nat) : bitToBit o = o % 32 := by
  simp only [bitToBit, bitsPerElem]
  omega

/-- A load of a word. -/
@[simp] theorem loadElem_natCast (bits : List Elem) (i : Nat) : loadElem bits i = bits[i]? := by
  simp [loadElem]

/-- A store inside the words. -/
theorem storeElem_natCast {bits : List Elem} {i : Nat} (h : i < bits.length) (x : Elem) :
    storeElem bits i x = some (bits.set i x) := by
  simp [storeElem, h]

/-- The range check, for an `int`. -/
theorem bitlistValidbit_iff {bit : Int}
    (hlow : -2147483648 ≤ bit) (hhigh : bit < 2147483648) :
    bitlistValidbit bl bit = true ↔ 0 ≤ bit ∧ bit < bl.state.maxBits := by
  have huint : uint32 bit = (bit % 4294967296).toNat := rfl
  simp only [bitlistValidbit, Bool.not_eq_true', Bool.or_eq_false_iff, decide_eq_false_iff_not]
  omega

/-- A valid offset is a natural number below the size. -/
theorem exists_offset (bit : Int)
    (hvalid : bitlistValidbit bl (int32 bit) = true) :
    ∃ o : Nat, int32 bit = o ∧ o < bl.state.maxBits := by
  rw [bitlistValidbit_iff (le_int32 bit) (int32_lt bit)] at hvalid
  exact ⟨(int32 bit).toNat, by omega, by omega⟩

/-- An offset below the size is valid. -/
theorem bitlistValidbit_natCast (h : bl.state.maxBits ≤ 2147483648) {o : Nat}
    (ho : o < bl.state.maxBits) : bitlistValidbit bl o = true := by
  rw [bitlistValidbit_iff (by omega) (by omega)]
  omega

/-- The offset of a position of the list. -/
theorem int32_position (h : bl.state.maxBits ≤ 2147483648) {o : Nat} (ho : o < bl.state.maxBits) :
    int32 ((bl.state.baseBit : Int) + o - bl.state.baseBit) = o := by
  have hsub : (bl.state.baseBit : Int) + o - bl.state.baseBit = o := by omega
  rw [hsub, int32_of_range (by omega) (by omega)]

end Offsets

section Test
variable {bl : BitlistT}

/-- The word of a valid offset is there. -/
theorem WellFormed.word_lt (h : WellFormed bl) {o : Nat} (ho : o < bl.state.maxBits) :
    o / 32 < bl.state.maxElems := by
  have := h.elems
  omega

/-- An offset below the size has its word, and its bit there. -/
theorem WellFormed.getElem_word (h : WellFormed bl) {o : Nat} (ho : o < bl.state.maxBits) :
    ∃ x, bl.bits[o / 32]? = some x ∧ bitAt bl.bits o = x.getLsbD (o % 32) := by
  have hlt : o / 32 < bl.bits.length := (h.word_lt ho).trans_le h.room
  exact ⟨bl.bits[o / 32], List.getElem?_eq_getElem hlt,
    bitAt_of_getElem? (List.getElem?_eq_getElem hlt)⟩

/-- `bitlist_test` at a valid position reads its bit. -/
theorem bitlistTest_eq (h : WellFormed bl) {o : Nat} (ho : o < bl.state.maxBits) :
    bitlistTest bl (bl.state.baseBit + o) = some (bitAt bl.bits o) := by
  obtain ⟨x, hx, hbit⟩ := h.getElem_word ho
  have hmask : (x &&& bitToMask o != 0#32) = x.getLsbD (o % 32) := by
    rw [bitToMask, bitToBit_natCast, Bool.eq_iff_iff, bne_iff_ne]
    exact and_one_shiftLeft_ne_zero_iff (Nat.mod_lt o (by omega)) x
  simp only [bitlistTest, int32_position h.maxBits_le ho,
    bitlistValidbit_natCast h.maxBits_le ho, bitToElem_natCast, loadElem_natCast, hx]
  simp [hmask, hbit]

/-- The same at a position whose offset wraps to the bit. -/
theorem WellFormed.test_of_offset (h : WellFormed bl) {p : Int} {o : Nat}
    (ho : int32 (p - bl.state.baseBit) = o) (hlt : o < bl.state.maxBits) :
    bitlistTest bl p = some (bitAt bl.bits o) := by
  have hsame : int32 (p - bl.state.baseBit)
      = int32 ((bl.state.baseBit : Int) + o - bl.state.baseBit) := by
    rw [int32_position h.maxBits_le hlt, ho]
  rw [← bitlistTest_eq h hlt, bitlistTest, bitlistTest, hsame]

/-- The positions where `bitlist_test` answers TRUE, in ascending order. -/
def setPositions (bl : BitlistT) : List Int :=
  ((List.range bl.state.maxBits).map fun (o : Nat) => (bl.state.baseBit : Int) + o).filter fun i =>
    bitlistTest bl i = some true

/-- The set positions are the set offsets, counted from the base. -/
theorem setPositions_eq (h : WellFormed bl) :
    setPositions bl
      = (positions (bitAt bl.bits) 0 bl.state.maxBits).map
          fun (o : Nat) => (bl.state.baseBit : Int) + o := by
  have hfilter : (List.range bl.state.maxBits).filter
      ((fun i => decide (bitlistTest bl i = some true)) ∘
        fun (o : Nat) => (bl.state.baseBit : Int) + o)
        = (List.range bl.state.maxBits).filter (bitAt bl.bits) := by
    apply List.filter_congr
    intro o ho
    have htest := bitlistTest_eq h (List.mem_range.mp ho)
    simp [Function.comp, htest]
  rw [setPositions, List.filter_map, hfilter, positions, Nat.sub_zero, List.range_eq_range']

end Test

end MyTestFiles.Proofs.Bitlist
