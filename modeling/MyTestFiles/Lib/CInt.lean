import Mathlib

/-!
# `MyTestFiles.Lib.CInt`: the fixed-width integer types of C

`int32` is a value as an `int`, which wraps in two's complement, and `uint32` a value as a
32-bit unsigned integer. `int64` and `uint64` are the two of 64 bits. Each operation on such
integers is the operation on `Int` with the result converted. `int32_of_range` and its
siblings drop the conversion where nothing wraps, and the congruence lemmas move it out of a
sum or a product. Division truncates (`div64`): `tdiv_of_mul_nonneg` and `tdiv_of_mul_neg` give
the quotient by the signs, `abs_tmod_lt` bounds the remainder.

Signed overflow is undefined in C. The conversion here is what the compilers of these programs do,
so a model over these types says what the machine computes, and a statement that no operation
wraps is a statement in its own right.

A value of a C type is an `Int` or a `Nat` that the conversion leaves alone. The lemmas on ranges
are the ones that proofs use most: they turn a computation of the source into plain arithmetic,
one operation after the other, wherever the operands are known to be small.
-/

set_option autoImplicit false

namespace MyTestFiles.Lib

/-- The `int` that a value becomes. -/
def int32 (x : Int) : Int := (x + 2147483648) % 4294967296 - 2147483648

/-- The 32-bit unsigned integer that a value becomes. -/
def uint32 (x : Int) : Nat := (x % 4294967296).toNat

/-- The 64-bit signed integer that a value becomes. -/
def int64 (x : Int) : Int := (x + 9223372036854775808) % 18446744073709551616 - 9223372036854775808

/-- The 64-bit unsigned integer that a value becomes. -/
def uint64 (x : Int) : Nat := (x % 18446744073709551616).toNat

/-- The largest `int`. -/
def intMax : Int := 2147483647

/-- Division of 64-bit signed integers, which truncates. There is no quotient by zero, and the
smallest value divided by `-1` does not fit. -/
def div64 (x y : Int) : Option Int :=
  if y = 0 ∨ (x = -9223372036854775808 ∧ y = -1) then none else some (x.tdiv y)

/-- In range of an `int` nothing wraps. -/
theorem int32_of_range {x : Int} (h : -2147483648 ≤ x) (h' : x < 2147483648) : int32 x = x := by
  simp only [int32]
  omega

/-- In range of an unsigned integer nothing wraps. -/
theorem uint32_of_range {x : Int} (h : 0 ≤ x) (h' : x < 4294967296) : uint32 x = x.toNat := by
  simp only [uint32]
  omega

/-- A natural number below the limit is its own unsigned integer. -/
theorem uint32_natCast {n : Nat} (h : n < 4294967296) : uint32 n = n := by
  simp only [uint32]
  omega

/-- The upper bound of an `int`. -/
theorem int32_lt (x : Int) : int32 x < 2147483648 := by
  simp only [int32]
  omega

/-- The lower bound of an `int`. -/
theorem le_int32 (x : Int) : -2147483648 ≤ int32 x := by
  simp only [int32]
  omega

/-- A wrapped summand wraps away. -/
theorem int32_int32_add (x y : Int) : int32 (int32 x + y) = int32 (x + y) := by
  simp only [int32]
  omega

/-- The conversion of the first operand of a difference can be left out. -/
theorem int32_int32_sub (x y : Int) : int32 (int32 x - y) = int32 (x - y) := by
  simp only [int32]
  omega

/-- In range of a 64-bit integer nothing wraps. -/
theorem int64_of_range {x : Int} (h : -9223372036854775808 ≤ x) (h' : x < 9223372036854775808) :
    int64 x = x := by
  simp only [int64]
  omega

/-- In range of a 64-bit unsigned integer nothing wraps. -/
theorem uint64_of_range {x : Int} (h : 0 ≤ x) (h' : x < 18446744073709551616) :
    uint64 x = x.toNat := by
  simp only [uint64]
  omega

/-- An unsigned product wraps once. -/
theorem uint64_uint64_mul (x y : Int) : uint64 (uint64 x * y) = uint64 (x * y) := by
  have hx : (uint64 x : Int) = x % 18446744073709551616 :=
    Int.toNat_of_nonneg (Int.emod_nonneg x (by decide))
  have hmod : x % 18446744073709551616 * y % 18446744073709551616 = x * y % 18446744073709551616 :=
    (Int.mod_modEq x _).mul_right y
  rw [uint64, hx, hmod, ← uint64]

/-- Just the numbers in range are left alone. -/
theorem int32_eq_self_iff {x : Int} : int32 x = x ↔ -2147483648 ≤ x ∧ x < 2147483648 := by
  constructor
  · intro h
    have hlo := le_int32 x
    have hhi := int32_lt x
    omega
  · rintro ⟨h, h'⟩
    exact int32_of_range h h'

/-! ### Truncated division -/

section Division
variable {x y : Int}

/-- The division of two integers, apart from the two cases in which it traps: by zero, and of the
smallest integer by minus one. -/
theorem div64_eq_some (hy : y ≠ 0) (hpair : ¬ (x = -9223372036854775808 ∧ y = -1)) :
    div64 x y = some (x.tdiv y) :=
  if_neg (not_or.mpr ⟨hy, hpair⟩)

/-- The quotient of two numbers of one sign. -/
theorem tdiv_of_mul_nonneg (h : 0 ≤ x * y) : x.tdiv y = |x| / |y| := by
  -- both are taken to be positive
  rcases mul_nonneg_iff.mp h with ⟨hx, hy⟩ | ⟨hx, hy⟩
  · rw [abs_of_nonneg hx, abs_of_nonneg hy, Int.tdiv_eq_ediv_of_nonneg hx]
  · rw [abs_of_nonpos hx, abs_of_nonpos hy, ← Int.neg_tdiv_neg,
      Int.tdiv_eq_ediv_of_nonneg (neg_nonneg.mpr hx)]

/-- The quotient of two numbers of different signs. -/
theorem tdiv_of_mul_neg (h : x * y < 0) : x.tdiv y = -(|x| / |y|) := by
  have hneg : 0 ≤ -x * y := by
    rw [neg_mul]
    omega
  rw [← abs_neg x, ← tdiv_of_mul_nonneg hneg, Int.neg_tdiv, neg_neg]

/-- The multiple of the divisor that is taken away lies between zero and the dividend. -/
theorem tdiv_mul_range : (0 ≤ x → 0 ≤ x.tdiv y * y ∧ x.tdiv y * y ≤ x) ∧
    (x ≤ 0 → x ≤ x.tdiv y * y ∧ x.tdiv y * y ≤ 0) := by
  -- what is left has the sign of the dividend and is no larger
  have hsplit := Int.tdiv_mul_add_tmod x y
  have hsize := Int.natAbs_tmod x y
  have hle := Nat.mod_le x.natAbs y.natAbs
  constructor
  · intro hx
    have hsign := Int.tmod_nonneg y hx
    omega
  · intro hx
    have hsign := Int.tmod_nonneg y (neg_nonneg.mpr hx)
    rw [Int.neg_tmod] at hsign
    omega

/-- A remainder is smaller than the divisor. -/
theorem abs_tmod_lt (hy : y ≠ 0) : |x.tmod y| < |y| := by
  have hlt := Nat.mod_lt x.natAbs (Int.natAbs_pos.mpr hy)
  rw [Int.abs_eq_natAbs, Int.abs_eq_natAbs, Int.natAbs_tmod]
  exact Int.ofNat_lt.mpr hlt

end Division

end MyTestFiles.Lib
