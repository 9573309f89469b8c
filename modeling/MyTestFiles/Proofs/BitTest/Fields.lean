import MyTestFiles.BitTest.BitBuffer
import MyTestFiles.Lib.BitField
import MyTestFiles.Lib.Loop

/-!
# `MyTestFiles.Proofs.BitTest.Fields`: reading and writing fields of bits

The bits of a buffer are a memory with one cell for each position (`bits`), which together
with the size determines the buffer (`ext_of_bits`). One pass of each loop reads or writes
one cell, so `set_bits` is a write of a field of that memory (`setBits_spec`) and `get_bits`
reads one (`getBits_spec`). The laws of fields give `bitField_laws`.

* A field of the buffer is the cells from `offset` on, as many as `size`, and the high bit of the
  value stands in the first of them.
* A field that is wider than the type of the value, or that reaches outside the buffer, is a fault
  of the source. The laws are about the other fields, and nothing else is asked.

The assertions of `get` and `set` never fail on a field inside the buffer, so all three laws also
say that the calls return.
-/

set_option autoImplicit false

namespace MyTestFiles.Proofs.BitTest

open MyTestFiles.Lib
open MyTestFiles.BitTest

section Bits
variable {buffer written : BitBuffer} {offset size : Nat}

/-- The bits of a buffer by position. -/
def bits (buffer : BitBuffer) : Nat → Bool := bitAt buffer.data

/-- A buffer is determined by its size and its bits. -/
theorem ext_of_bits (hsize : written.byteSize = buffer.byteSize) (h : bits written = bits buffer) :
    written = buffer := by
  obtain ⟨data⟩ := buffer
  obtain ⟨data'⟩ := written
  have hdata : data' = data := words_ext (by decide) hsize fun o _ => congrFun h o
  rw [hdata]

/-! ### One bit -/

/-- A mask of one bit tests it. -/
theorem and_mask_bne_zero {w j : Nat} (h : j < w) (x : BitVec w) :
    (x &&& (1#w <<< j) != 0) = x.getLsbD j := by
  rw [Bool.eq_iff_iff, bne_iff_ne]
  exact and_one_shiftLeft_ne_zero_iff h x

/-- The byte of a bit inside the buffer is in the buffer. -/
theorem byte_lt {p : Nat} (hp : p < 8 * buffer.byteSize) : p / 8 < buffer.data.length := by
  unfold BitBuffer.byteSize at hp
  omega

/-- `get` inside the buffer. -/
theorem get_eq {p : Nat} (hp : p < 8 * buffer.byteSize) : buffer.get p = some (bits buffer p) := by
  have hbyte := byte_lt hp
  have hget := List.getElem?_eq_getElem hbyte
  have hmask := and_mask_bne_zero (show p % 8 < 8 by omega) buffer.data[p / 8]
  unfold BitBuffer.get bits
  rw [bitAt_of_getElem? hget, hget, ← hmask]
  rfl

/-- `get` outside the buffer faults. -/
theorem get_of_ge {p : Nat} (hp : 8 * buffer.byteSize ≤ p) : buffer.get p = none := by
  have hbyte : buffer.data[p / 8]? = none := by
    rw [List.getElem?_eq_none_iff]
    unfold BitBuffer.byteSize at hp
    omega
  rw [BitBuffer.get, hbyte]
  rfl

/-- The byte that `set` stores has the value in one bit. -/
theorem getLsbD_stored {i j : Nat} (hi : i < 8) (hj : j < 8) (byte : UnsignedChar) (val : Bool) :
    (if val then byte ||| (1#8 <<< j) else byte &&& ~~~(1#8 <<< j)).getLsbD i =
      if i = j then val else byte.getLsbD i := by
  have hmask := getLsbD_one_shiftLeft hj i
  cases val with
  | true =>
      rw [if_pos rfl, BitVec.getLsbD_or, hmask]
      by_cases h : i = j <;> simp [h]
  | false =>
      rw [if_neg Bool.false_ne_true, BitVec.getLsbD_and, BitVec.getLsbD_not, hmask]
      by_cases h : i = j <;> simp [h, hi]

/-- A write of one bit changes its cell only. -/
theorem set_spec {p : Nat} (hp : p < 8 * buffer.byteSize) (val : Bool) :
    ∃ written, buffer.set p val = some written ∧ written.byteSize = buffer.byteSize ∧
      bits written = Function.update (bits buffer) p val := by
  have hbyte := byte_lt hp
  obtain ⟨byte, hget⟩ : ∃ byte, buffer.data[p / 8]? = some byte :=
    ⟨_, List.getElem?_eq_getElem hbyte⟩
  unfold BitBuffer.set
  rw [hget]
  refine ⟨_, rfl, List.length_set, ?_⟩
  funext o
  have hcell : o = p ↔ o / 8 = p / 8 ∧ o % 8 = p % 8 := by omega
  unfold bits
  rw [bitAt_set hbyte]
  by_cases hsame : o / 8 = p / 8
  · have hbit : bitAt buffer.data o = byte.getLsbD (o % 8) :=
      bitAt_of_getElem? (by rw [hsame, hget])
    rw [if_pos hsame, getLsbD_stored (by omega) (by omega), Function.update_apply, hbit]
    exact if_congr (by rw [hcell]; exact ⟨fun h => ⟨hsame, h⟩, fun h => h.2⟩) rfl rfl
  · rw [if_neg hsame, Function.update_of_ne fun h => hsame (hcell.mp h).1]

/-! ### The loops -/

/-- A shift by less than the width is defined. -/
theorem shiftLeft_of_lt {value : Unsigned} {count : Nat} (h : count < 32) :
    shiftLeft value count = some (value <<< count) :=
  if_pos h

/-- A pass of `set_bits` writes one cell. -/
theorem setBitsPass_spec {i : Nat} (value : Unsigned) (hsize : size ≤ 32)
    (hbit : offset + i < 8 * buffer.byteSize) :
    ∃ written, setBitsPass offset size value buffer i = some written ∧
      written.byteSize = buffer.byteSize ∧
      bits written =
        Function.update (bits buffer) (offset + i) (value.getLsbD (size - 1 - i)) := by
  have hmask := and_mask_bne_zero (show size - 1 - i < 32 by omega) value
  obtain ⟨written, hset, hspec⟩ := set_spec hbit (value.getLsbD (size - 1 - i))
  refine ⟨written, ?_, hspec⟩
  unfold setBitsPass
  rw [shiftLeft_of_lt (by omega)]
  show buffer.set (offset + i) (value &&& (1#32 <<< (size - 1 - i)) != 0) = some written
  rw [hmask, hset]

/-- `set_bits` writes the bits of the value to the field, the high one first. -/
theorem setBits_spec (value : Unsigned) (hsize : size ≤ 32)
    (hfield : offset + size ≤ 8 * buffer.byteSize) :
    ∃ written, setBits buffer offset size value = some written ∧
      written.byteSize = buffer.byteSize ∧
      bits written =
        writeField (bits buffer) offset size fun i => value.getLsbD (size - 1 - i) := by
  -- the passes so far have written the first `i` cells
  refine foldlM_range_rule (fun i written => written.byteSize = buffer.byteSize ∧
    bits written = writeField (bits buffer) offset i fun i => value.getLsbD (size - 1 - i))
    ?_ ⟨rfl, (writeField_zero _ _ _).symm⟩
  intro i before hi hbefore
  obtain ⟨hsame, hbits⟩ := hbefore
  obtain ⟨written, hpass, hwritten, hupdate⟩ :=
    setBitsPass_spec value hsize (show offset + i < 8 * before.byteSize by omega)
  refine ⟨written, hpass, hwritten.trans hsame, ?_⟩
  rw [hupdate, hbits, writeField_succ]

/-- A pass of `get_bits` reads one cell into one bit of the value. -/
theorem getBitsPass_spec {i : Nat} (value : Unsigned) (hsize : size ≤ 32)
    (hbit : offset + i < 8 * buffer.byteSize) :
    ∃ value', getBitsPass buffer offset size value i = some value' ∧
      ∀ n, value'.getLsbD n =
        (value.getLsbD n || (decide (n = size - 1 - i) && bits buffer (offset + i))) := by
  -- A field has 32 bits at most, so the shift is defined.
  have hshift : ∀ bit : Bool, shiftLeft (if bit then 1 else 0) (size - 1 - i) =
      some ((if bit then 1 else 0 : Unsigned) <<< (size - 1 - i)) :=
    fun bit => shiftLeft_of_lt (show size - 1 - i < 32 by omega)
  refine ⟨value ||| (if bits buffer (offset + i) then 1 else 0 : Unsigned) <<< (size - 1 - i),
    ?_, ?_⟩
  · unfold getBitsPass
    rw [get_eq hbit]
    show (shiftLeft _ _).bind _ = _
    rw [hshift]
    rfl
  · intro n
    rw [BitVec.getLsbD_or]
    cases bits buffer (offset + i) with
    | true =>
        rw [Bool.and_true, if_pos rfl]
        exact congrArg _ (getLsbD_one_shiftLeft (by omega) n)
    | false => simp

/-- `get_bits` collects the bits of the field, the first one as the high one. -/
theorem getBits_spec (hsize : size ≤ 32) (hfield : offset + size ≤ 8 * buffer.byteSize) :
    ∃ value, getBits buffer offset size = some value ∧
      ∀ n, value.getLsbD n = (decide (n < size) && bits buffer (offset + (size - 1 - n))) := by
  -- the passes so far have set the bits from `size - i` on
  let inv : Nat → Unsigned → Prop := fun i value => ∀ n, value.getLsbD n =
    (decide (size - i ≤ n ∧ n < size) && bits buffer (offset + (size - 1 - n)))
  have hstart : inv 0 0 := by
    intro n
    have hnone : ¬ (size - 0 ≤ n ∧ n < size) := by omega
    rw [decide_eq_false hnone]
    exact BitVec.getLsbD_zero
  have hstep : ∀ i before, i < size → inv i before →
      ∃ value, getBitsPass buffer offset size before i = some value ∧ inv (i + 1) value := by
    intro i before hi hbefore
    obtain ⟨value, hpass, hvalue⟩ :=
      getBitsPass_spec before hsize (show offset + i < 8 * buffer.byteSize by omega)
    refine ⟨value, hpass, fun n => ?_⟩
    rw [hvalue, hbefore]
    by_cases hn : n = size - 1 - i
    · have hi' : size - 1 - n = i := by omega
      have hin : size - (i + 1) ≤ n ∧ n < size := by omega
      have hout : ¬ (size - i ≤ n ∧ n < size) := by omega
      rw [hi', decide_eq_true hn, decide_eq_true hin, decide_eq_false hout, Bool.false_and,
        Bool.false_or]
    · have hiff : (size - (i + 1) ≤ n ∧ n < size) ↔ (size - i ≤ n ∧ n < size) := by omega
      rw [decide_eq_false hn, Bool.false_and, Bool.or_false, decide_eq_decide.mpr hiff]
  obtain ⟨value, hrun, hvalue⟩ := foldlM_range_rule inv hstep hstart
  refine ⟨value, hrun, fun n => ?_⟩
  rw [hvalue, Nat.sub_self]
  simp

/-! ### The laws -/

/-- What was written is read back, up to the bits that the field has no room for. -/
theorem getBits_setBits (value : Unsigned) (hsize : size ≤ 32)
    (hfield : offset + size ≤ 8 * buffer.byteSize)
    (hbits : bits buffer =
      writeField (bits written) offset size fun i => value.getLsbD (size - 1 - i)) :
    ∃ result, getBits buffer offset size = some result ∧
      result.toNat = value.toNat % 2 ^ size := by
  obtain ⟨result, hrun, hresult⟩ := getBits_spec hsize hfield
  refine ⟨result, hrun, Nat.eq_of_testBit_eq fun n => ?_⟩
  rw [BitVec.testBit_toNat, hresult, Nat.testBit_mod_two_pow, BitVec.testBit_toNat]
  by_cases hn : n < size
  · have hin : InField offset size (offset + (size - 1 - n)) := by
      unfold InField
      omega
    have hindex : size - 1 - (offset + (size - 1 - n) - offset) = n := by omega
    rw [hbits, writeField_of_inField hin, hindex]
  · rw [decide_eq_false hn, Bool.false_and, Bool.false_and]

/-- The value of a field written back leaves the buffer as it is. -/
theorem setBits_getBits (hsize : size ≤ 32) (hfield : offset + size ≤ 8 * buffer.byteSize) :
    ∃ value, getBits buffer offset size = some value ∧
      setBits buffer offset size value = some buffer := by
  obtain ⟨value, hread, hvalue⟩ := getBits_spec hsize hfield
  obtain ⟨written, hwrite, hsame, hbits⟩ := setBits_spec value hsize hfield
  refine ⟨value, hread, hwrite.trans (congrArg some (ext_of_bits hsame ?_))⟩
  have hcell : ∀ i < size, value.getLsbD (size - 1 - i) = bits buffer (offset + i) := by
    intro i hi
    have hin : size - 1 - i < size := by omega
    have hindex : size - 1 - (size - 1 - i) = i := by omega
    rw [hvalue, decide_eq_true hin, Bool.true_and, hindex]
  rw [hbits, writeField_congr hcell, writeField_self]

/-- Writes of two disjoint fields can be exchanged. -/
theorem setBits_comm {offset' size' : Nat} (value value' : Unsigned) (hsize : size ≤ 32)
    (hfield : offset + size ≤ 8 * buffer.byteSize) (hsize' : size' ≤ 32)
    (hfield' : offset' + size' ≤ 8 * buffer.byteSize)
    (hdisjoint : ∀ p, InField offset size p → ¬ InField offset' size' p) :
    ∃ written, ((setBits buffer offset size value).bind fun buffer =>
        setBits buffer offset' size' value') = some written ∧
      ((setBits buffer offset' size' value').bind fun buffer =>
        setBits buffer offset size value) = some written := by
  obtain ⟨one, hone, hsame1, hbits1⟩ := setBits_spec value hsize hfield
  obtain ⟨both, hboth, hsame12, hbits12⟩ :=
    setBits_spec value' hsize' (show offset' + size' ≤ 8 * one.byteSize by omega)
  obtain ⟨two, htwo, hsame2, hbits2⟩ := setBits_spec value' hsize' hfield'
  obtain ⟨both', hboth', hsame21, hbits21⟩ :=
    setBits_spec value hsize (show offset + size ≤ 8 * two.byteSize by omega)
  have heq : both' = both := by
    refine ext_of_bits (by omega) ?_
    rw [hbits12, hbits21, hbits1, hbits2, writeField_comm hdisjoint]
  refine ⟨both, ?_, ?_⟩
  · rw [hone, Option.bind_some, hboth]
  · rw [htwo, Option.bind_some, hboth', heq]

/-- A field that is written is read back modulo its size and nothing else changes, what is
read can be written back, and writes of disjoint fields can be exchanged. -/
theorem bitField_laws (buffer : BitBuffer) (offset size : Nat) (hsize : size ≤ 32)
    (hfield : offset + size ≤ buffer.bitSize) :
    (∀ value : Unsigned, ∃ written, setBits buffer offset size value = some written ∧
      written.byteSize = buffer.byteSize ∧
      (∃ result, getBits written offset size = some result ∧
        result.toNat = value.toNat % 2 ^ size) ∧
      ∀ p, ¬ InField offset size p → written.get p = buffer.get p) ∧
    (∃ value, getBits buffer offset size = some value ∧
      setBits buffer offset size value = some buffer) ∧
    (∀ (value value' : Unsigned) (offset' size' : Nat), size' ≤ 32 →
      offset' + size' ≤ buffer.bitSize →
      (∀ p, InField offset size p → ¬ InField offset' size' p) →
        ∃ written, ((setBits buffer offset size value).bind fun buffer =>
            setBits buffer offset' size' value') = some written ∧
          ((setBits buffer offset' size' value').bind fun buffer =>
            setBits buffer offset size value) = some written) := by
  have hbitSize : buffer.bitSize = 8 * buffer.byteSize := Nat.mul_comm _ _
  rw [hbitSize] at hfield ⊢
  refine ⟨?_, setBits_getBits hsize hfield, ?_⟩
  · intro value
    obtain ⟨written, hwrite, hsame, hbits⟩ := setBits_spec value hsize hfield
    refine ⟨written, hwrite, hsame, getBits_setBits value hsize (by omega) hbits, ?_⟩
    intro p hp
    -- outside the buffer there is nothing to read before or after
    by_cases hin : p < 8 * buffer.byteSize
    · rw [get_eq hin, get_eq (show p < 8 * written.byteSize by omega), hbits,
        writeField_of_not_inField hp]
    · rw [get_of_ge (show 8 * buffer.byteSize ≤ p by omega),
        get_of_ge (show 8 * written.byteSize ≤ p by omega)]
  · intro value value' offset' size' hsize' hfield' hdisjoint
    exact setBits_comm value value' hsize hfield hsize' hfield' hdisjoint

/-- A field across a byte boundary, and a value with a bit too many. -/
theorem bitField_laws_straddling :
    ∃ written, setBits ⟨[0xff, 0xff]⟩ 6 4 0x15 = some written ∧
      ∃ result, getBits written 6 4 = some result ∧ result.toNat = 0x15 % 2 ^ 4 := by
  obtain ⟨written, hwrite, -, hread, -⟩ :=
    (bitField_laws ⟨[0xff, 0xff]⟩ 6 4 (by decide) (by decide)).1 0x15
  exact ⟨written, hwrite, hread⟩

end Bits

end MyTestFiles.Proofs.BitTest
