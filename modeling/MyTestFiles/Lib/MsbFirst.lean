import Mathlib
import MyTestFiles.Lib.BitField

/-!
# `MyTestFiles.Lib.MsbFirst`: streams of bits with the high bit first

Big-endian numerals: `ofDigitsMsb` is the number with given digits, the high one first. A word
is the list of its bits from the high one down (`msbFirst`), the stream of several words is
their lists in a row (`stream`), and a field of a stream is read as a binary numeral
(`readField`).

A field that covers whole words is their big-endian value (`readField_stream`). The bits of a
field and its value determine each other (`testBit_readField`, `readField_eq_iff`), and so do
words and their value (`wordsValue_inj`).

Bits are counted from the front of the stream, so bit 0 is the high bit of the first word. Inside
a word that is `BitVec.getMsbD`, and `getD_msbFirst` connects the two. The numeral of a field
counts from its low end, and `testBit_readField` has the one place where the order is turned
round.

The bits are booleans and the values natural numbers, so a field may be wider than any word. A
program that keeps the value in a word shows on its own that the value fits.
-/

set_option autoImplicit false

namespace MyTestFiles.Lib

/-! ### Numerals -/

/-- The number with the given digits in base `b`, the high one first. -/
def ofDigitsMsb (b : Nat) (digits : List Nat) : Nat := digits.foldl (fun n d => b * n + d) 0

section Digits
variable {b : Nat} {xs ys : List Nat}

/-- The numeral with the low digit first is Mathlib's `Nat.ofDigits`. -/
theorem ofDigitsMsb_eq_ofDigits (b : Nat) (xs : List Nat) :
    ofDigitsMsb b xs = Nat.ofDigits b xs.reverse := by
  rw [Nat.ofDigits_eq_foldr, List.foldr_reverse]
  unfold ofDigitsMsb
  congr 1
  funext n d
  exact Nat.add_comm _ _

/-- A numeral in two parts: the front part counts in units of the back part's range. -/
theorem ofDigitsMsb_append (b : Nat) (xs ys : List Nat) :
    ofDigitsMsb b (xs ++ ys) = ofDigitsMsb b xs * b ^ ys.length + ofDigitsMsb b ys := by
  simp only [ofDigitsMsb_eq_ofDigits]
  rw [List.reverse_append, Nat.ofDigits_append, List.length_reverse, Nat.mul_comm, Nat.add_comm]

/-- One more digit at the low end. -/
theorem ofDigitsMsb_concat (b : Nat) (xs : List Nat) (d : Nat) :
    ofDigitsMsb b (xs ++ [d]) = b * ofDigitsMsb b xs + d := by
  rw [ofDigitsMsb, List.foldl_append]
  rfl

/-- Numerals of one length are determined by their values. -/
theorem ofDigitsMsb_inj (hb : 1 < b) (hlength : xs.length = ys.length) (hxs : ∀ d ∈ xs, d < b)
    (hys : ∀ d ∈ ys, d < b) : ofDigitsMsb b xs = ofDigitsMsb b ys ↔ xs = ys := by
  constructor
  · intro h
    rw [ofDigitsMsb_eq_ofDigits, ofDigitsMsb_eq_ofDigits] at h
    refine List.reverse_injective (Nat.ofDigits_inj_of_len_eq hb ?_ ?_ ?_ h)
    · rw [List.length_reverse, List.length_reverse, hlength]
    · exact fun d hd => hxs d (List.mem_reverse.mp hd)
    · exact fun d hd => hys d (List.mem_reverse.mp hd)
  · rintro rfl
    rfl

end Digits

/-! ### Bits -/

/-- The binary numeral with the given bits, the high one first. -/
def bitsValue (bits : List Bool) : Nat := ofDigitsMsb 2 (bits.map Bool.toNat)

/-- The field of `size` bits at `offset` as a number. -/
def readField (bits : List Bool) (offset size : Nat) : Nat :=
  bitsValue ((bits.drop offset).take size)

section Bits
variable {bits bits' : List Bool} {offset size : Nat}

/-- A field in two parts. -/
theorem bitsValue_append (bits bits' : List Bool) :
    bitsValue (bits ++ bits') = bitsValue bits * 2 ^ bits'.length + bitsValue bits' := by
  rw [bitsValue, List.map_append, ofDigitsMsb_append, List.length_map]
  rfl

/-- The bits of the value, counted from its low end, are the bits of the list from its end. -/
theorem testBit_bitsValue (bits : List Bool) (n : Nat) :
    (bitsValue bits).testBit n = bits.reverse.getD n false := by
  induction bits using List.reverseRecOn generalizing n with
  | nil => simp [bitsValue, ofDigitsMsb]
  | append_singleton bits b ih =>
      have hvalue : bitsValue (bits ++ [b]) = 2 * bitsValue bits + b.toNat := by
        rw [bitsValue, List.map_append, List.map_singleton, ofDigitsMsb_concat]
        rfl
      -- the last bit is bit zero, and half the number is the numeral of the others
      rw [hvalue, List.reverse_append, List.reverse_singleton, List.singleton_append]
      cases n with
      | zero =>
          rw [List.getD_cons_zero, Nat.testBit_zero, Nat.mul_add_mod]
          cases b <;> rfl
      | succ n =>
          have hhalf : (2 * bitsValue bits + b.toNat) / 2 = bitsValue bits := by
            have hb := Bool.toNat_lt b
            omega
          rw [List.getD_cons_succ, Nat.testBit_succ, hhalf, ih]

/-- Bit `n` of a field stands `n` places before the end of the field. -/
theorem testBit_readField (hroom : offset + size ≤ bits.length) (n : Nat) :
    (readField bits offset size).testBit n =
      (decide (n < size) && bits.getD (offset + (size - 1 - n)) false) := by
  have hlength : ((bits.drop offset).take size).length = size := by
    rw [List.length_take, List.length_drop]
    omega
  rw [readField, testBit_bitsValue, List.getD_eq_getElem?_getD, List.getD_eq_getElem?_getD]
  by_cases hn : n < size
  · rw [List.getElem?_reverse (by omega), hlength, List.getElem?_take_of_lt (by omega),
      List.getElem?_drop, decide_eq_true hn, Bool.true_and]
  · rw [List.getElem?_eq_none (by rw [List.length_reverse]; omega), decide_eq_false hn,
      Bool.false_and]
    rfl

/-- Two fields have the same value exactly when they have the same bits. -/
theorem readField_eq_iff (hroom : offset + size ≤ bits.length)
    (hroom' : offset + size ≤ bits'.length) :
    readField bits offset size = readField bits' offset size ↔
      ∀ p, InField offset size p → bits.getD p false = bits'.getD p false := by
  constructor
  · rintro h p ⟨hlow, hhigh⟩
    -- position `p` is this bit of the value, counted from the low end
    have hbit := congrArg (Nat.testBit · (offset + size - 1 - p)) h
    have hin : offset + size - 1 - p < size := by omega
    have hindex : offset + (size - 1 - (offset + size - 1 - p)) = p := by omega
    simpa only [testBit_readField hroom, testBit_readField hroom', decide_eq_true hin,
      Bool.true_and, hindex] using hbit
  · intro h
    refine Nat.eq_of_testBit_eq fun n => ?_
    rw [testBit_readField hroom, testBit_readField hroom']
    by_cases hn : n < size
    · rw [h (offset + (size - 1 - n)) ⟨by omega, by omega⟩]
    · rw [decide_eq_false hn, Bool.false_and, Bool.false_and]

end Bits

/-! ### Words -/

section Words
variable {w : Nat} {words words' : List (BitVec w)}

/-- The bits of a word from the high one down. -/
def msbFirst (x : BitVec w) : List Bool := (List.range w).map x.getMsbD

/-- The bits of several words in a row. -/
def stream (words : List (BitVec w)) : List Bool := words.flatMap msbFirst

/-- The big-endian value of several words. -/
def wordsValue (words : List (BitVec w)) : Nat := ofDigitsMsb (2 ^ w) (words.map BitVec.toNat)

/-- A word is as many bits as it is wide. -/
theorem length_msbFirst (x : BitVec w) : (msbFirst x).length = w := by
  rw [msbFirst, List.length_map, List.length_range]

/-- Bit `p` of the list is bit `p` from the high end. -/
theorem getD_msbFirst (x : BitVec w) {p : Nat} (hp : p < w) :
    (msbFirst x).getD p false = x.getMsbD p := by
  rw [msbFirst, List.getD_eq_getElem?_getD, List.getElem?_map, List.getElem?_range hp]
  rfl

/-- The bits of a word have its value. -/
theorem bitsValue_msbFirst (x : BitVec w) : bitsValue (msbFirst x) = x.toNat := by
  refine Nat.eq_of_testBit_eq fun n => ?_
  rw [testBit_bitsValue, BitVec.testBit_toNat]
  by_cases hn : n < w
  · have hindex : w - 1 - (w - 1 - n) = n := by omega
    rw [List.getD_eq_getElem?_getD, List.getElem?_reverse (by rwa [length_msbFirst]),
      length_msbFirst, ← List.getD_eq_getElem?_getD, getD_msbFirst x (by omega), BitVec.getMsbD,
      decide_eq_true (by omega), Bool.true_and, hindex]
  · rw [List.getD_eq_default _ _ (by rw [List.length_reverse, length_msbFirst]; omega),
      BitVec.getLsbD_of_ge _ _ (by omega)]

/-- The stream of several words starts with the bits of the first. -/
theorem stream_cons (x : BitVec w) (words : List (BitVec w)) :
    stream (x :: words) = msbFirst x ++ stream words :=
  List.flatMap_cons

/-- A stream has the bits of all its words. -/
theorem length_stream (words : List (BitVec w)) : (stream words).length = w * words.length := by
  induction words with
  | nil => rfl
  | cons x words ih =>
      rw [stream_cons, List.length_append, length_msbFirst, ih, List.length_cons]
      ring

/-- Bit `p` of a stream is in word `p / w`. -/
theorem getD_stream {x : BitVec w} {p : Nat} (hw : 0 < w) (h : words[p / w]? = some x) :
    (stream words).getD p false = x.getMsbD (p % w) := by
  induction words generalizing p with
  | nil => simp at h
  | cons y words ih =>
      rw [stream_cons]
      by_cases hp : p < w
      -- the first word, or position `p - w` behind it
      · rw [Nat.div_eq_of_lt hp, List.getElem?_cons_zero, Option.some_inj] at h
        rw [List.getD_append _ _ _ _ (by rwa [length_msbFirst]), getD_msbFirst y hp,
          Nat.mod_eq_of_lt hp, h]
      · have hsplit : p = p - w + w := by omega
        have hdiv : p / w = (p - w) / w + 1 := by
          rw [hsplit, Nat.add_div_right _ hw, Nat.add_sub_cancel]
        have hmod : p % w = (p - w) % w := by
          rw [hsplit, Nat.add_mod_right, Nat.add_sub_cancel]
        rw [hdiv, List.getElem?_cons_succ] at h
        rw [List.getD_append_right _ _ _ _ (by rw [length_msbFirst]; omega), length_msbFirst,
          hmod, ih h]

/-- A stream is the numeral of its words. -/
theorem bitsValue_stream (words : List (BitVec w)) :
    bitsValue (stream words) = wordsValue words := by
  induction words using List.reverseRecOn with
  | nil => rfl
  | append_singleton words x ih =>
      have hlast : stream [x] = msbFirst x := List.append_nil _
      rw [stream, List.flatMap_append, bitsValue_append, ← stream, ← stream, hlast, ih,
        length_msbFirst, bitsValue_msbFirst, wordsValue, wordsValue, List.map_append,
        List.map_singleton, ofDigitsMsb_concat, Nat.mul_comm]

/-- Leaving out whole words at the front of a stream. -/
theorem drop_stream (words : List (BitVec w)) (i : Nat) :
    (stream words).drop (w * i) = stream (words.drop i) := by
  induction i generalizing words with
  | zero => rfl
  | succ i ih =>
      cases words with
      | nil => exact List.drop_nil
      | cons x words =>
          have hsplit : w * (i + 1) = (msbFirst x).length + w * i := by
            rw [length_msbFirst]
            ring
          rw [stream_cons, hsplit, List.drop_length_add_append, ih, List.drop_succ_cons]

/-- The first words of a stream. -/
theorem take_stream (words : List (BitVec w)) (k : Nat) :
    (stream words).take (w * k) = stream (words.take k) := by
  induction k generalizing words with
  | zero => rfl
  | succ k ih =>
      cases words with
      | nil => exact List.take_nil
      | cons x words =>
          have hsplit : w * (k + 1) = (msbFirst x).length + w * k := by
            rw [length_msbFirst]
            ring
          rw [stream_cons, hsplit, List.take_length_add_append, ih, List.take_succ_cons,
            stream_cons]

/-- A field that covers whole words. -/
theorem readField_stream (words : List (BitVec w)) (i k : Nat) :
    readField (stream words) (w * i) (w * k) = wordsValue ((words.drop i).take k) := by
  rw [readField, drop_stream, take_stream, bitsValue_stream]

/-- As many words with the same value are the same words. -/
theorem wordsValue_inj (hw : 0 < w) (hlength : words.length = words'.length) :
    wordsValue words = wordsValue words' ↔ words = words' := by
  have hbound : ∀ words : List (BitVec w), ∀ d ∈ words.map BitVec.toNat, d < 2 ^ w := by
    intro words d hd
    obtain ⟨x, -, rfl⟩ := List.mem_map.mp hd
    exact x.isLt
  -- the words are digits below the base
  rw [wordsValue, wordsValue, ofDigitsMsb_inj (Nat.one_lt_two_pow hw.ne') (by simpa using hlength)
    (hbound words) (hbound words')]
  exact (List.map_injective_iff.mpr BitVec.toNat_injective).eq_iff

end Words

end MyTestFiles.Lib
