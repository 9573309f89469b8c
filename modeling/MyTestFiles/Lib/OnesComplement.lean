import Mathlib

/-!
# `MyTestFiles.Lib.OnesComplement`: the Internet checksum

The checksum of a message is right when the one's complement sum of its 16-bit words is all
ones. `total` is that sum, word by word with the end-around carry, and `total_eq_allOnes`
reads the condition off the plain sum.

A program may add the words in the byte order of its host, and fold the carries only at the
end. `total_bigEndian_eq_allOnes` and `foldCarries_eq_total` say that neither matters.

Everything comes from one fact: the one's complement sum of words is their sum modulo 65535, where
all ones and zero stand for the same residue and zero is the sum of zeros only (`foldl_add16`).
Swapping the bytes of a word is a multiplication by 256 modulo 65535, which is why the byte order
does not matter.

`foldCarries_eq_total` is about the low half of the folded sum. The second fold may carry out of
it, and a program that cuts the result to 16 bits never sees that carry.
-/

set_option autoImplicit false

namespace MyTestFiles.Lib.OnesComplement

/-- Addition of 16-bit words with the end-around carry. -/
def add16 (a b : Nat) : Nat := if a + b < 65536 then a + b else a + b - 65535

/-- The one's complement sum of 16-bit words. -/
def total (words : List Nat) : Nat := words.foldl add16 0

/-- The words of a message in network order. An odd last byte is the high one of its word. -/
def bigEndian : List UInt8 → List Nat
  | [] => []
  | [b] => [b.toNat * 256]
  | a :: b :: rest => (a.toNat * 256 + b.toNat) :: bigEndian rest

/-- The words as a host with the other byte order reads them. -/
def littleEndian : List UInt8 → List Nat
  | [] => []
  | [b] => [b.toNat]
  | a :: b :: rest => (a.toNat + 256 * b.toNat) :: littleEndian rest

/-! ### The sum with carries and the plain sum -/

section Total
variable {words : List Nat}

/-- The one's complement sum, as a residue, and when it is zero. -/
theorem foldl_add16 (h : ∀ w ∈ words, w < 65536) {s : Nat} (hs : s < 65536) :
    words.foldl add16 s < 65536 ∧
      words.foldl add16 s % 65535 = (s + words.sum) % 65535 ∧
      (words.foldl add16 s = 0 ↔ s + words.sum = 0) := by
  induction words generalizing s with
  | nil => exact ⟨hs, rfl, Iff.rfl⟩
  | cons w words ih =>
      have hw : w < 65536 := h w List.mem_cons_self
      have hadd : add16 s w < 65536 ∧ add16 s w % 65535 = (s + w) % 65535 ∧
          (add16 s w = 0 ↔ s + w = 0) := by
        simp only [add16]
        split_ifs <;> omega
      obtain ⟨hlt, hmod, hzero⟩ := ih (fun v hv => h v (List.mem_cons_of_mem _ hv)) hadd.1
      simp only [List.foldl_cons, List.sum_cons]
      omega

/-- All ones is the zero that a sum of words reaches once one of them is not zero. -/
theorem total_eq_allOnes (h : ∀ w ∈ words, w < 65536) :
    total words = 0xffff ↔ words.sum ≠ 0 ∧ words.sum % 65535 = 0 := by
  obtain ⟨hlt, hmod, hzero⟩ := foldl_add16 h (show 0 < 65536 by decide)
  simp only [total]
  omega

end Total

/-! ### The byte order -/

section Order
variable {message rest : List UInt8}

/-- A word of a message has 16 bits. -/
theorem lt_of_mem_bigEndian {w : Nat} (h : w ∈ bigEndian message) : w < 65536 := by
  induction message using bigEndian.induct with
  | case1 => cases h
  | case2 b =>
      have hb := b.toNat_lt
      simp only [bigEndian, List.mem_singleton] at h
      omega
  | case3 a b rest ih =>
      have ha := a.toNat_lt
      have hb := b.toNat_lt
      rcases List.mem_cons.mp h with rfl | hrest
      · omega
      · exact ih hrest

/-- So has it in the other byte order. -/
theorem lt_of_mem_littleEndian {w : Nat} (h : w ∈ littleEndian message) : w < 65536 := by
  induction message using littleEndian.induct with
  | case1 => cases h
  | case2 b =>
      have hb := b.toNat_lt
      simp only [littleEndian, List.mem_singleton] at h
      omega
  | case3 a b rest ih =>
      have ha := a.toNat_lt
      have hb := b.toNat_lt
      rcases List.mem_cons.mp h with rfl | hrest
      · omega
      · exact ih hrest

/-- Each word with its bytes swapped is 256 times the word, up to carries. -/
theorem sum_bigEndian (message : List UInt8) :
    (bigEndian message).sum % 65535 = (256 * (littleEndian message).sum) % 65535 ∧
      ((bigEndian message).sum = 0 ↔ (littleEndian message).sum = 0) := by
  induction message using bigEndian.induct with
  | case1 => exact ⟨rfl, Iff.rfl⟩
  | case2 b =>
      simp only [bigEndian, littleEndian, List.sum_singleton]
      omega
  | case3 a b rest ih =>
      obtain ⟨hmod, hzero⟩ := ih
      simp only [bigEndian, littleEndian, List.sum_cons]
      omega

/-- The checksum is right when the sum in the other byte order is a positive multiple of
65535. -/
theorem total_bigEndian_eq_allOnes :
    total (bigEndian message) = 0xffff ↔
      (littleEndian message).sum ≠ 0 ∧ (littleEndian message).sum % 65535 = 0 := by
  obtain ⟨hmod, hzero⟩ := sum_bigEndian message
  rw [total_eq_allOnes fun w hw => lt_of_mem_bigEndian hw]
  omega

/-- Words do not straddle an even length. -/
theorem littleEndian_append (h : message.length % 2 = 0) :
    littleEndian (message ++ rest) = littleEndian message ++ littleEndian rest := by
  induction message using littleEndian.induct with
  | case1 => rfl
  | case2 b => simp at h
  | case3 a b message ih =>
      simp only [List.length_cons] at h
      show _ :: littleEndian (message ++ rest) = _ :: (littleEndian message ++ littleEndian rest)
      rw [ih (by omega)]

/-- A bound on the sum of the words of a message. -/
theorem sum_littleEndian_le (message : List UInt8) :
    (littleEndian message).sum ≤ 65535 * ((message.length + 1) / 2) := by
  induction message using littleEndian.induct with
  | case1 => exact Nat.zero_le _
  | case2 b =>
      have hb := b.toNat_lt
      simp only [littleEndian, List.sum_singleton, List.length_singleton]
      omega
  | case3 a b rest ih =>
      have ha := a.toNat_lt
      have hb := b.toNat_lt
      simp only [littleEndian, List.sum_cons, List.length_cons]
      omega

end Order

/-! ### The carries folded at the end -/

/-- After two folds the low half of the sum is the one's complement sum of the words. -/
theorem foldCarries_eq_total {words : List Nat} (h : ∀ w ∈ words, w < 65536)
    (hs : words.sum < 2147483648) :
    (words.sum / 65536 + words.sum % 65536 +
      (words.sum / 65536 + words.sum % 65536) / 65536) % 65536 = total words := by
  obtain ⟨hlt, hmod, hzero⟩ := foldl_add16 h (show 0 < 65536 by decide)
  change total words < 65536 at hlt
  change total words % 65535 = (0 + words.sum) % 65535 at hmod
  change total words = 0 ↔ 0 + words.sum = 0 at hzero
  generalize total words = t at hlt hmod hzero
  generalize words.sum = s at hs hmod hzero
  obtain ⟨q, r, hr, rfl⟩ : ∃ q r, r < 65536 ∧ s = 65536 * q + r :=
    ⟨s / 65536, s % 65536, Nat.mod_lt _ (by decide), (Nat.div_add_mod s 65536).symm⟩
  have hq : (65536 * q + r) / 65536 = q := by omega
  have hr' : (65536 * q + r) % 65536 = r := by omega
  rw [hq, hr']
  -- the first fold leaves at most one carry
  have hcarry : (q + r) / 65536 = 0 ∨ (q + r) / 65536 = 1 := by omega
  rcases hcarry with h0 | h1
  · rw [h0]
    omega
  · rw [h1]
    omega

/-- The complement of the low half is zero for a sum that is a positive multiple of 65535. -/
theorem complement_total_eq_zero {words : List Nat} (h : ∀ w ∈ words, w < 65536) :
    65535 - total words = 0 ↔ words.sum ≠ 0 ∧ words.sum % 65535 = 0 := by
  have hlt := (foldl_add16 h (show 0 < 65536 by decide)).1
  change total words < 65536 at hlt
  rw [← total_eq_allOnes h]
  omega

end MyTestFiles.Lib.OnesComplement
