import MyTestFiles.Proofs.Bitlist.Mutators

/-!
# `MyTestFiles.Proofs.Bitlist.Contiguous`: set and clear of a block of words

`bitlist_set_contiguous` and `bitlist_clear_contiguous` check the two ends of the block and
then hand its length to `memset`. `FillLaw` is what they owe: no write outside the words of
the list, and afterwards the old list or one where exactly the bits of the block changed.

The two ends do not bound the length. A negative length between two valid ends passes every
check, and from -64 down it rounds to a negative number of words, which `memset` takes for a
huge size. `contiguous_inRange_iff` says that this is the only way to fail.

The two operations differ in the byte that they write, so both are one definition over it, and
each has the law with its own value.

* `block_written` turns a write of words into one of positions. It is used by the copies of blocks
  as well.
* `fillLaw_iff` is over the word that is written, and its condition is about the start and the
  length alone: the block does not run backwards.
-/

set_option autoImplicit false

namespace MyTestFiles.Proofs.Bitlist

open MyTestFiles.Lib
open MyTestFiles.Bitlist

/-- From `bl` to `bl'` the positions from `bit` on, `bits` of them, came to answer as `value`
says, and all others answer as before. A position is an `int`. -/
def BlockWritten (value : Int → Option Bool) (bl : BitlistT) (bit bits : Int) (bl' : BitlistT) :
    Prop :=
  (∀ i, 0 ≤ i → i < bits → bitlistTest bl' (int32 (bit + i)) = value i) ∧
    ∀ p, int32 p = p → (∀ i, 0 ≤ i → i < bits → p ≠ int32 (bit + i)) →
      bitlistTest bl' p = bitlistTest bl p

/-- The call writes no word but those of the list, and either leaves the list alone or writes
the block. -/
def BlockLaw (value : Int → Option Bool) (bl : BitlistT) (bit bits : Int)
    (call : Option BitlistT) : Prop :=
  ∃ bl', call = some bl' ∧ bl'.state = bl.state ∧ bl'.bits.length = bl.bits.length ∧
    (bl' = bl ∨ BlockWritten value bl bit bits bl')

/-- All positions of the block become `v`. -/
def FillLaw (v : Bool) : BitlistT → Int → Int → Option BitlistT → Prop :=
  BlockLaw fun _ => some v

section Contiguous
variable {n b : Nat} {bl : BitlistT} {bit bits : Int}

/-- The offset of a position in a block. -/
theorem int32_block {i j : Int} (hi : int32 (bit - b) = i) (hrange : -2147483648 ≤ i + j)
    (hlt : i + j < 2147483648) : int32 (int32 (bit + j) - b) = i + j := by
  simp only [int32] at hi ⊢
  omega

/-- The position with the offset `i + j`. -/
theorem eq_int32_block {p i j : Int} (hp : int32 p = p) (hi : int32 (bit - b) = i)
    (ho : int32 (p - b) = i + j) : p = int32 (bit + j) := by
  simp only [int32] at hp hi ho ⊢
  omega

/-- A block of words that takes the bits `f` is a block of positions that does. -/
theorem block_written (h : HasGeometry n b bl) {words : List Elem}
    (hlen : words.length = bl.bits.length) {i k : Nat} (hi : int32 (bit - b) = (32 * i : Nat))
    (hk : bits = (32 * k : Nat)) (hend : 32 * (i + k) ≤ n) {f : Nat → Bool}
    (hwords : ∀ o, bitAt words o
      = if i ≤ o / 32 ∧ o / 32 < i + k then f (o - 32 * i) else bitAt bl.bits o)
    {value : Int → Option Bool} (hvalue : ∀ j < 32 * k, value j = some (f j)) :
    BlockWritten value bl bit bits { bl with bits := words } := by
  have hmax := h.le_max
  have hgeo : HasGeometry n b { bl with bits := words } := h.withBits hlen
  constructor
  · intro j hj hlt
    obtain ⟨j, rfl⟩ := Int.eq_ofNat_of_zero_le hj
    have ho : int32 (int32 (bit + j) - b) = (32 * i + j : Nat) := by
      rw [int32_block hi (by omega) (by omega)]
      omega
    have hin : i ≤ (32 * i + j) / 32 ∧ (32 * i + j) / 32 < i + k := by omega
    have hsub : 32 * i + j - 32 * i = j := by omega
    have htest := hgeo.test_of_offset ho (by omega)
    rw [htest, hwords, if_pos hin, hsub, hvalue j (by omega)]
  · intro p hp hout
    by_cases hvalid : 0 ≤ int32 (p - b) ∧ int32 (p - b) < n
    · obtain ⟨o, ho⟩ := Int.eq_ofNat_of_zero_le hvalid.1
      have hlt : o < n := by omega
      -- an offset in the block would be that of one of its positions
      have hword : ¬(i ≤ o / 32 ∧ o / 32 < i + k) := by
        intro hin
        have hj : int32 (p - b) = (32 * i : Nat) + ((o : Int) - 32 * i) := by omega
        exact hout _ (by omega) (by omega) (eq_int32_block hp hi hj)
      have htest := hgeo.test_of_offset ho hlt
      rw [htest, h.test_of_offset ho hlt, hwords, if_neg hword]
    · rw [hgeo.test_of_invalid hvalid, h.test_of_invalid hvalid]

/-- A fill meets its law unless the block runs backwards. -/
theorem fillLaw_iff (h : HasGeometry n b bl) {v : Bool} {x : Elem}
    (hx : ∀ j < 32, x.getLsbD j = v) (hbits : int32 bits = bits) :
    FillLaw v bl bit bits (bitlistFillContiguous x bl bit bits) ↔ ¬BackwardBlock bl bit bits := by
  -- The call faults, leaves the list alone or fills the words of the block.
  rcases fillContiguous_cases h x bit bits with
    ⟨hback, hcall⟩ | ⟨hnot, hcall⟩ | ⟨hnot, i, k, hi, hk, hend, hcall⟩
  · rw [hcall]
    apply iff_of_false
    · intro hlaw
      obtain ⟨bl', hsome, -⟩ := hlaw
      cases hsome
    · exact not_not.mpr hback
  · rw [hcall]
    exact iff_of_true ⟨bl, rfl, rfl, rfl, Or.inl rfl⟩ hnot
  · rw [hcall]
    have hlen := h.length
    have hroom : i + k ≤ bl.bits.length := by omega
    have hfill : ∀ o, bitAt (fill bl.bits i k x) o
        = if i ≤ o / 32 ∧ o / 32 < i + k then v else bitAt bl.bits o := by
      intro o
      rw [bitAt_fill hroom, hx _ (Nat.mod_lt o (by omega))]
    have hwritten : BlockWritten (fun _ => some v) bl bit bits
        { bl with bits := fill bl.bits i k x } :=
      block_written h (length_fill hroom x) hi (hbits ▸ hk) hend hfill fun _ _ => rfl
    exact iff_of_true ⟨_, rfl, rfl, length_fill hroom x, Or.inr hwritten⟩ hnot

/-- The word that `bitlist_set_contiguous` writes. -/
theorem getLsbD_allOnes_elem : ∀ j < 32, (~~~0 : Elem).getLsbD j = true := by
  intro j hj
  rw [BitVec.getLsbD_not]
  simp [hj]

/-- The word that `bitlist_clear_contiguous` writes. -/
theorem getLsbD_zero_elem : ∀ j < 32, (0 : Elem).getLsbD j = false := by
  intro j _
  exact BitVec.getLsbD_zero

/-- Both operations on blocks keep their law, on every list and for every start and length,
exactly where the block does not run backwards. -/
theorem contiguous_inRange_iff (h : HasGeometry n b bl) (hbits : int32 bits = bits) :
    (FillLaw true bl bit bits (bitlistSetContiguous bl bit bits) ∧
      FillLaw false bl bit bits (bitlistClearContiguous bl bit bits)) ↔
        ¬BackwardBlock bl bit bits := by
  have hset : FillLaw true bl bit bits (bitlistSetContiguous bl bit bits) ↔
      ¬BackwardBlock bl bit bits := fillLaw_iff h getLsbD_allOnes_elem hbits
  have hclear : FillLaw false bl bit bits (bitlistClearContiguous bl bit bits) ↔
      ¬BackwardBlock bl bit bits := fillLaw_iff h getLsbD_zero_elem hbits
  rw [hset, hclear, and_self]

/-- 128 bits from 1000 on, all clear. -/
def fourWords : BitlistT := ⟨⟨4, 128, 1000, 0, 0⟩, [0, 0, 0, 0]⟩

/-- The list of the counterexample is well formed. -/
theorem fourWords_geometry : HasGeometry 128 1000 fourWords :=
  ⟨rfl, rfl, rfl, rfl, by decide⟩

/-- 64 bits from 1032 on. -/
theorem contiguous_inRange_middle :
    (FillLaw true fourWords 1032 64 (bitlistSetContiguous fourWords 1032 64) ∧
      FillLaw false fourWords 1032 64 (bitlistClearContiguous fourWords 1032 64)) ∧
    bitlistSetContiguous fourWords 1032 64
      = some ⟨⟨4, 128, 1000, 0, 0⟩, [0, 0xffffffff, 0xffffffff, 0]⟩ := by
  have hforward : ¬BackwardBlock fourWords 1032 64 := by
    intro hback
    exact absurd hback.2.2.2 (by decide)
  exact ⟨(contiguous_inRange_iff fourWords_geometry (by decide)).mpr hforward, by decide⟩

/-- -64 bits from 1096 on: the other end is 1031, a position of the list. -/
theorem not_contiguous_inRange :
    ¬∀ (n b : Nat) (bl : BitlistT) (bit bits : Int), HasGeometry n b bl → int32 bit = bit →
      int32 bits = bits →
      FillLaw true bl bit bits (bitlistSetContiguous bl bit bits) ∧
        FillLaw false bl bit bits (bitlistClearContiguous bl bit bits) := by
  intro hall
  obtain ⟨⟨bl', hcall, -⟩, -⟩ :=
    hall 128 1000 fourWords 1096 (-64) fourWords_geometry (by decide) (by decide)
  have hfault : bitlistSetContiguous fourWords 1096 (-64) = none := by decide
  rw [hfault] at hcall
  cases hcall

end Contiguous

end MyTestFiles.Proofs.Bitlist
