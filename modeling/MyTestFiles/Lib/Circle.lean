import Mathlib

/-!
# `MyTestFiles.Lib.Circle`: signed differences on a circle

On a circle of `n` ticks the difference of two times is the representative of `x - y` of the
least absolute value, `circleDiff`. It is a difference modulo `n` (`circleDiff_modEq`) within
half the circle (`circleDiff_range`), with no tick exactly opposite it is antisymmetric
(`circleDiff_swap`), and differences that together stay within half the circle add up
(`circleDiff_add`).

`circleDiff` is Mathlib's `Int.bmod` in the order of a subtraction. What the module adds is what a
user of differences needs: when two of them can be added, and when they change their sign with the
order.

The range is half of the circle on each side, so on a circle with an even number of ticks the tick
opposite has only one of its two signs. That is why antisymmetry asks for an odd number.

Addition of differences is a law of short steps: where the two steps and their sum stay within
half of the circle, the sum of the differences is the difference of the ends. Along a stream of
times whose steps are short it telescopes.
-/

set_option autoImplicit false

namespace MyTestFiles.Lib

/-- The difference of two times on a circle of `n` ticks. -/
def circleDiff (n : Nat) (x y : Int) : Int := (x - y).bmod n

section Circle
variable {n : Nat} {x y z : Int}

/-- It is a difference modulo the circle. -/
theorem circleDiff_modEq (n : Nat) (x y : Int) : circleDiff n x y ≡ x - y [ZMOD n] :=
  Int.bmod_emod

/-- Half of an odd circle lies on each side. -/
theorem circleDiff_range (hodd : n % 2 = 1) (x y : Int) :
    -((n : Int) / 2) ≤ circleDiff n x y ∧ circleDiff n x y ≤ (n : Int) / 2 := by
  have hpos : 0 < n := by omega
  have hlow : -((n : Int) / 2) ≤ circleDiff n x y := Int.le_bmod hpos
  have hhigh : circleDiff n x y < ((n : Int) + 1) / 2 := Int.bmod_lt hpos
  omega

/-- The representative in range is the difference. -/
theorem circleDiff_eq {d : Int} (hodd : n % 2 = 1) (hlow : -((n : Int) / 2) ≤ d)
    (hhigh : d ≤ (n : Int) / 2) (hmod : d ≡ x - y [ZMOD n]) : circleDiff n x y = d := by
  have hd : d.bmod n = d := Int.bmod_eq_of_le hlow (by omega)
  have hcongr : (x - y).bmod n = d.bmod n := by
    rw [← Int.emod_bmod (x - y), ← Int.emod_bmod d, hmod]
  exact hcongr.trans hd

/-- On a circle with an odd number of ticks it changes its sign with the order. -/
theorem circleDiff_swap (hodd : n % 2 = 1) (x y : Int) :
    circleDiff n y x = -circleDiff n x y := by
  have hrange := circleDiff_range hodd x y
  refine circleDiff_eq hodd (by omega) (by omega) ?_
  have hneg := (circleDiff_modEq n x y).neg
  rw [neg_sub] at hneg
  exact hneg

/-- Two steps that stay within half the circle are one step. -/
theorem circleDiff_add (hodd : n % 2 = 1)
    (hhalf : |circleDiff n x y| + |circleDiff n y z| ≤ (n : Int) / 2) :
    circleDiff n x z = circleDiff n x y + circleDiff n y z := by
  have habs := (abs_add_le (circleDiff n x y) (circleDiff n y z)).trans hhalf
  obtain ⟨hlow, hhigh⟩ := abs_le.mp habs
  refine circleDiff_eq hodd hlow hhigh ?_
  have hsum := (circleDiff_modEq n x y).add (circleDiff_modEq n y z)
  rw [sub_add_sub_cancel] at hsum
  exact hsum

end Circle

end MyTestFiles.Lib
