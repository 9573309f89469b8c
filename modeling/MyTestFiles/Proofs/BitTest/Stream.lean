import MyTestFiles.Lib.MsbFirst
import MyTestFiles.Proofs.BitTest.Fields

/-!
# `MyTestFiles.Proofs.BitTest.Stream`: reading a byte stream

A bitstream header numbers the bits of a byte from the high one down. `get_bits` puts the
first bit it reads at the high end of the value, but `get` numbers the bits of a byte from the
low one up: what is read is a field of the stream in which every byte is reversed
(`getBits_stream`). `streamLaw_iff` says where that makes no difference.

Both orders of the bits are positions in one buffer. `mirror p` is the position that has the place
of `p` in a byte counted from the other end, so the stream of the buffer and the bits of the
buffer are each other's mirror image.

A field of whole bytes is read as it should be where all of its bytes are palindromes of bits
(`readsBytes_iff`), and a field in general where the buffer agrees with its mirror image on the
field (`readsField_iff`).
-/

set_option autoImplicit false

namespace MyTestFiles.Proofs.BitTest

open MyTestFiles.Lib
open MyTestFiles.BitTest

/-- The field is read as the stream of the bytes has it. -/
def ReadsField (buffer : BitBuffer) (offset size : Nat) : Prop :=
  ∃ value, getBits buffer offset size = some value ∧
    value.toNat = readField (stream buffer.data) offset size

/-- The `k` bytes from byte `i` on are read as a big-endian number. -/
def ReadsBytes (buffer : BitBuffer) (i k : Nat) : Prop :=
  ∃ value, getBits buffer (8 * i) (8 * k) = some value ∧
    value.toNat = wordsValue ((buffer.data.drop i).take k)

/-- The position with the same distance from the other end of its byte. -/
def mirror (p : Nat) : Nat := 8 * (p / 8) + (7 - p % 8)

section Stream
variable {buffer : BitBuffer} {offset size : Nat}

/-- The bytes with their bits in the order in which `get` numbers them. -/
def reversedBytes (buffer : BitBuffer) : List UnsignedChar := buffer.data.map BitVec.reverse

/-- A bit inside the buffer is in a byte of it. -/
theorem exists_byte {p : Nat} (hp : p < 8 * buffer.byteSize) :
    ∃ byte, buffer.data[p / 8]? = some byte :=
  ⟨_, List.getElem?_eq_getElem (byte_lt hp)⟩

/-- The stream has the bits of the buffer mirrored in each byte. -/
theorem getD_stream_data {p : Nat} (hp : p < 8 * buffer.byteSize) :
    (stream buffer.data).getD p false = bits buffer (mirror p) := by
  obtain ⟨byte, hget⟩ := exists_byte hp
  have hsame : mirror p / 8 = p / 8 := by
    unfold mirror
    omega
  have hbit : mirror p % 8 = 8 - 1 - p % 8 := by
    unfold mirror
    omega
  rw [getD_stream (by decide) hget, bits, bitAt_of_getElem? (by rw [hsame, hget]), hbit,
    BitVec.getMsbD, decide_eq_true (by omega), Bool.true_and]

/-- The stream of the reversed bytes has the bits of the buffer in their order. -/
theorem getD_stream_reversed {p : Nat} (hp : p < 8 * buffer.byteSize) :
    (stream (reversedBytes buffer)).getD p false = bits buffer p := by
  obtain ⟨byte, hget⟩ := exists_byte hp
  have hreversed : (reversedBytes buffer)[p / 8]? = some byte.reverse := by
    rw [reversedBytes, List.getElem?_map, hget, Option.map_some]
  rw [getD_stream (by decide) hreversed, BitVec.getMsbD_reverse, bits, bitAt_of_getElem? hget]

/-- The stream has the bits of all bytes. -/
theorem length_stream_data (buffer : BitBuffer) :
    (stream buffer.data).length = 8 * buffer.byteSize :=
  length_stream _

/-- The stream of the reversed bytes is as long. -/
theorem length_stream_reversed (buffer : BitBuffer) :
    (stream (reversedBytes buffer)).length = 8 * buffer.byteSize := by
  rw [length_stream, reversedBytes, List.length_map, BitBuffer.byteSize]

/-- `get_bits` reads the stream of the reversed bytes. -/
theorem getBits_stream (hsize : size ≤ 32) (hfield : offset + size ≤ 8 * buffer.byteSize) :
    ∃ value, getBits buffer offset size = some value ∧
      value.toNat = readField (stream (reversedBytes buffer)) offset size := by
  obtain ⟨value, hread, hvalue⟩ := getBits_spec hsize hfield
  -- bit `n` of the value is the position `size - 1 - n` places into the field
  refine ⟨value, hread, Nat.eq_of_testBit_eq fun n => ?_⟩
  rw [BitVec.testBit_toNat, hvalue,
    testBit_readField (hfield.trans (length_stream_reversed buffer).ge)]
  by_cases hn : n < size
  · rw [getD_stream_reversed (show offset + (size - 1 - n) < 8 * buffer.byteSize by omega)]
  · rw [decide_eq_false hn, Bool.false_and, Bool.false_and]

/-- What is read agrees with a value exactly when the stream of the reversed bytes does. -/
theorem exists_getBits_iff (hsize : size ≤ 32) (hfield : offset + size ≤ 8 * buffer.byteSize)
    (n : Nat) : (∃ value, getBits buffer offset size = some value ∧ value.toNat = n) ↔
      readField (stream (reversedBytes buffer)) offset size = n := by
  obtain ⟨value, hread, hvalue⟩ := getBits_stream hsize hfield
  rw [← hvalue]
  constructor
  · rintro ⟨value', hread', rfl⟩
    rw [Option.some_inj.mp (hread.symm.trans hread')]
  · intro h
    exact ⟨value, hread, h⟩

/-- A field is read right just where the buffer is its own mirror image on the field. -/
theorem readsField_iff (hsize : size ≤ 32) (hfield : offset + size ≤ 8 * buffer.byteSize) :
    ReadsField buffer offset size ↔
      ∀ p, InField offset size p → bits buffer p = bits buffer (mirror p) := by
  rw [ReadsField, exists_getBits_iff hsize hfield,
    readField_eq_iff (hfield.trans (length_stream_reversed buffer).ge)
      (hfield.trans (length_stream_data buffer).ge)]
  refine forall₂_congr fun p hp => ?_
  have hin : p < 8 * buffer.byteSize := hp.2.trans_le hfield
  rw [getD_stream_reversed hin, getD_stream_data hin]

/-- A field of whole bytes is read right just where each of its bytes is its own reverse. -/
theorem readsBytes_iff {i k : Nat} (hk : k ≤ 4) (hroom : i + k ≤ buffer.byteSize) :
    ReadsBytes buffer i k ↔ ∀ byte ∈ (buffer.data.drop i).take k, byte.reverse = byte := by
  have hreversed : ((reversedBytes buffer).drop i).take k =
      ((buffer.data.drop i).take k).map BitVec.reverse := by
    rw [reversedBytes, ← List.map_drop, ← List.map_take]
  -- whole bytes of the reversed stream, and as many bytes have one value only once
  rw [ReadsBytes, exists_getBits_iff (by omega) (by omega), readField_stream, hreversed,
    wordsValue_inj (by decide) (List.length_map _)]
  have hmap := List.map_inj_left (l := (buffer.data.drop i).take k) (f := BitVec.reverse) (g := id)
  rwa [List.map_id] at hmap

end Stream

/-- `get_bits` reads bytes as a big-endian number exactly when each of them is its own
reversal, and a field as the stream has it exactly when each of its bits is the mirrored one. -/
theorem streamLaw_iff (buffer : BitBuffer) :
    (∀ i k, k ≤ 4 → i + k ≤ buffer.byteSize →
      (ReadsBytes buffer i k ↔ ∀ byte ∈ (buffer.data.drop i).take k, byte.reverse = byte)) ∧
    ∀ offset size, size ≤ 32 → offset + size ≤ buffer.bitSize →
      (ReadsField buffer offset size ↔
        ∀ p, InField offset size p → bits buffer p = bits buffer (mirror p)) := by
  constructor
  · intro i k hk hroom
    exact readsBytes_iff hk hroom
  · intro offset size hsize hfield
    exact readsField_iff hsize (hfield.trans_eq (Nat.mul_comm _ _))

/-- Two bytes that are their own reversals. -/
theorem streamLaw_iff_palindromes : ReadsBytes ⟨[0x18, 0x81]⟩ 0 2 :=
  ((streamLaw_iff ⟨[0x18, 0x81]⟩).1 0 2 (by decide) (by decide)).mpr (by decide)

/-- The sync word of the DD+ header is `0x0b77`, and `0xd0ee` is read. -/
theorem not_streamLaw :
    getBits ⟨unitTestEac371StandardValidArr⟩ 0 16 = some 0xd0ee ∧
      wordsValue (unitTestEac371StandardValidArr.take 2) = 0x0b77 ∧
      ¬ ReadsBytes ⟨unitTestEac371StandardValidArr⟩ 0 2 := by
  have hread : getBits ⟨unitTestEac371StandardValidArr⟩ 0 16 = some 0xd0ee := by decide
  have hvalue : wordsValue (unitTestEac371StandardValidArr.take 2) = 0x0b77 := by decide
  refine ⟨hread, hvalue, ?_⟩
  rintro ⟨value, hread', hsame⟩
  rw [Option.some_inj.mp (hread'.symm.trans hread)] at hsame
  exact absurd (hsame.trans hvalue) (by decide)

end MyTestFiles.Proofs.BitTest
