import MyTestFiles.Lib.Circle
import MyTestFiles.TestWrap.Timestamp

/-!
# `MyTestFiles.Proofs.TestWrap.DiffTime`: differences of timestamps on the PTS circle

The wrap correction makes the difference of two PTS values the difference on a circle of
`MAX_PTS_VAL` ticks, one less than a 33-bit clock has (`diffTimeSigned_pts`). The laws of
such a circle then hold of the stream (`diffTimeSigned_circle`), and those of the 33-bit
clock fail for a pair across the wrap (`not_diffTimeSigned_clock`).

The circle has an odd number of ticks, so no two of its ticks are opposite each other and the
difference always changes its sign with the order. A clock of 33 bits has one tick more, and there
the two laws differ.

* `diffTimeSigned_eq` is the function without the types: for values that are at most a circle
  apart, the corrected difference is `circleDiff`.
* The four laws of `diffTimeSigned_circle` are proved from the lemmas of `Lib.Circle`, and none of
  them unfolds the correction.
* `not_diffTimeSigned_clock` is a pair of values with a wrap between them. On a clock of 33 bits
  they are 16 ticks apart, and the function answers 15.
-/

set_option autoImplicit false

namespace MyTestFiles.Proofs.TestWrap

open MyTestFiles.Lib
open MyTestFiles.TestWrap

/-- The circle of the wrap correction. -/
def circle (type : TimestampType) : Nat :=
  (if type = .pts then maxPtsVal else maxHns).toNat

/-- Values of one clock that differ by at most its circle. -/
theorem diffTimeSigned_eq (type : TimestampType) (value1 value2 : Int)
    (hdiff : |value1 - value2| ≤ circle type) :
    diffTimeSigned ⟨type, value1⟩ ⟨type, value2⟩ =
      some (circleDiff (circle type) value1 value2) := by
  have hcircle : (if type = .pts then maxPtsVal else maxHns) = circle type := by
    cases type <;> rfl
  have hodd : circle type % 2 = 1 := by
    cases type <;> rfl
  have hmax : circle type ≤ 9223372036854775807 := by
    cases type <;> decide
  obtain ⟨hlow, hhigh⟩ := abs_le.mp hdiff
  have hsub : int64 (value1 - value2) = value1 - value2 := int64_of_range (by omega) (by omega)
  have habs : llabs (value1 - value2) = |value1 - value2| :=
    int64_of_range (by have := abs_nonneg (value1 - value2); omega) (by omega)
  unfold diffTimeSigned
  simp only [if_true, hcircle, hsub, habs]
  by_cases hwrap : |value1 - value2| > (circle type : Int) / 2
  · rw [if_pos hwrap]
    -- the correction goes once round the circle, against the sign of the difference
    rcases abs_cases (value1 - value2) with ⟨heq, hsign⟩ | ⟨heq, hsign⟩
    · rw [if_pos (by omega), int64_of_range (by omega) (by omega)]
      refine congrArg some (circleDiff_eq hodd (by omega) (by omega) ?_).symm
      exact Int.sub_emod_right _ _
    · rw [if_neg (by omega), if_pos hsign, int64_of_range (by omega) (by omega)]
      refine congrArg some (circleDiff_eq hodd (by omega) (by omega) ?_).symm
      exact Int.add_emod_right _ _
  · rw [if_neg hwrap]
    have hrange := abs_le.mp (not_lt.mp hwrap)
    exact congrArg some (circleDiff_eq hodd hrange.1 hrange.2 rfl).symm

/-! ### The PTS clock -/

/-- A 33-bit value as a timestamp. -/
def ptsTimestamp (value : Fin (2 ^ 33)) : Timestamp where
  type := .pts
  value := (value : Nat)

/-- The difference of two PTS values is that on their circle. -/
theorem diffTimeSigned_pts (t1 t2 : Fin (2 ^ 33)) :
    diffTimeSigned (ptsTimestamp t1) (ptsTimestamp t2) =
      some (circleDiff (circle .pts) (t1 : Nat) (t2 : Nat)) := by
  have hcircle : circle .pts = 8589934591 := rfl
  refine diffTimeSigned_eq .pts _ _ ?_
  rw [hcircle, abs_le]
  omega

/-- The differences of PTS values are those of a circle of `MAX_PTS_VAL` ticks: congruent,
within half of it, antisymmetric, and additive along a stream that wraps. -/
theorem diffTimeSigned_circle (t1 t2 t3 : Fin (2 ^ 33)) :
    ∃ d12 d21 d23 d13,
      diffTimeSigned (ptsTimestamp t1) (ptsTimestamp t2) = some d12 ∧
      diffTimeSigned (ptsTimestamp t2) (ptsTimestamp t1) = some d21 ∧
      diffTimeSigned (ptsTimestamp t2) (ptsTimestamp t3) = some d23 ∧
      diffTimeSigned (ptsTimestamp t1) (ptsTimestamp t3) = some d13 ∧
      d12 ≡ (t1 : Nat) - (t2 : Nat) [ZMOD 2 ^ 33 - 1] ∧
      -(2 ^ 32) ≤ d12 ∧ d12 ≤ 2 ^ 32 ∧ d21 = -d12 ∧
      (|d12| + |d23| < 2 ^ 32 → d13 = d12 + d23) := by
  have hodd : circle .pts % 2 = 1 := rfl
  have hcircle : (circle .pts : Int) = 8589934591 := rfl
  refine ⟨_, _, _, _, diffTimeSigned_pts t1 t2, diffTimeSigned_pts t2 t1,
    diffTimeSigned_pts t2 t3, diffTimeSigned_pts t1 t3, ?_, ?_, ?_, ?_, ?_⟩
  · exact circleDiff_modEq (circle .pts) (t1 : Nat) (t2 : Nat)
  · have hrange := circleDiff_range hodd (t1 : Nat) (t2 : Nat)
    omega
  · have hrange := circleDiff_range hodd (t1 : Nat) (t2 : Nat)
    omega
  · exact circleDiff_swap hodd (t1 : Nat) (t2 : Nat)
  · intro hhalf
    exact circleDiff_add hodd (by omega)

/-- Across the wrap the difference is not one of a 33-bit clock: 10 is 16 ticks after the
value six ticks before the wrap, and the code counts 15. -/
theorem not_diffTimeSigned_clock :
    ¬ ∀ (t1 t2 : Fin (2 ^ 33)) (d : Int),
      diffTimeSigned (ptsTimestamp t1) (ptsTimestamp t2) = some d →
        d ≡ (t1 : Nat) - (t2 : Nat) [ZMOD 2 ^ 33] := by
  intro h
  have hmod := h ⟨10, by decide⟩ ⟨8589934586, by decide⟩ 15 (by decide)
  exact absurd hmod (by decide)

end MyTestFiles.Proofs.TestWrap
