import MyTestFiles.VamTime.Time

/-!
# `MyTestFiles.Proofs.VamTime.Pcr`: tics to microseconds and back

The trip from tics to microseconds and back truncates four times: both constants and both
shifts. `le_back` bounds the sum of the four for tics that are not negative.
A negative time becomes a huge unsigned number before the second product, and the logical
shift leaves it near `2 ^ 37` (`relTimeToPcr_of_neg`).

A shift to the right is a division that rounds down. It is arithmetic on the way to microseconds
and logical on the way back, so the two directions belong together only for tics that are not
negative (`roundTrip_of_nonneg`).

* `RoundTrip` is what the conversions owe: no product leaves 64 bits, and the tics that
  come back differ by at most one and a small share of the tics.
* `pcrProduct_fits` and `usecProduct_fits` have the two products, for every value that a program
  clock can have.
* `roundTrip_iff` says that negative tics are the only ones for which the trip goes wrong, and
  `far_of_neg` how wrong.

The bound on the error is met by one second of tics, which comes back one tic short.
-/

set_option autoImplicit false

namespace MyTestFiles.Proofs.VamTime

open MyTestFiles.Lib
open MyTestFiles.VamTime

/-- The mathematical value is within the 64-bit signed type. -/
def Fits64 (x : Int) : Prop := -9223372036854775808 ≤ x ∧ x < 9223372036854775808

/-- The trip of `pcr` to a relative time and back: no product exceeds 64 bits, and the
result is off by at most `1 + |pcr| / 2 ^ 24`. -/
structure RoundTrip (pcr : Int) : Prop where
  pcrProduct : Fits64 (pcr * pcrToUsecMult)
  usecProduct : Fits64 ((pcrToRelTime pcr).usec * usecToPcrMult)
  close : 16777216 * |relTimeToPcr (pcrToRelTime pcr) - pcr| ≤ 16777216 + |pcr|

/-- The multiplier from tics to microseconds. -/
theorem pcrToUsecMult_eq : pcrToUsecMult = 372827022 := by decide

/-- The multiplier back. -/
theorem usecToPcrMult_eq : usecToPcrMult = 12079595 := by decide

section Conversions
variable {pcr : Int} (hlo : -8589934592 < pcr) (hhi : pcr < 8589934592)
include hlo hhi

/-- The first product is within 64 bits. -/
theorem pcrProduct_fits : Fits64 (pcr * pcrToUsecMult) := by
  rw [pcrToUsecMult_eq, Fits64]
  omega

/-- Microseconds are the floor of the scaled tics. -/
theorem usec_pcrToRelTime : (pcrToRelTime pcr).usec = pcr * 372827022 / 33554432 := by
  obtain ⟨h, h'⟩ := pcrProduct_fits hlo hhi
  rw [pcrToRelTime, int64_of_range h h', Int.shiftRight_eq_div_pow, pcrToUsecMult_eq]
  rfl

/-- So is the second. -/
theorem usecProduct_fits : Fits64 ((pcrToRelTime pcr).usec * usecToPcrMult) := by
  rw [usec_pcrToRelTime hlo hhi, usecToPcrMult_eq, Fits64]
  omega

end Conversions

/-- The product of the way back, as one unsigned number. -/
theorem relTimeToPcr_eq (usec : Int) :
    relTimeToPcr ⟨usec⟩ = int64 (uint64 (usec * 12079595) / 134217728 : Nat) := by
  rw [relTimeToPcr, uint64_uint64_mul, usecToPcrMult_eq, Nat.shiftRight_eq_div_pow]
  rfl

/-- For a time that is not negative the product does not wrap. -/
theorem relTimeToPcr_of_nonneg {usec : Int} (h : 0 ≤ usec) (h' : usec < 137438953472) :
    relTimeToPcr ⟨usec⟩ = usec * 12079595 / 134217728 := by
  rw [relTimeToPcr_eq, uint64_of_range (by omega) (by omega),
    int64_of_range (by omega) (by omega)]
  omega

/-- A negative time wraps, and the result stays near `2 ^ 37`. -/
theorem relTimeToPcr_of_neg {usec : Int} (h : usec < 0) (h' : -137438953472 ≤ usec) :
    relTimeToPcr ⟨usec⟩ = 137438953472 + usec * 12079595 / 134217728 := by
  have hwrap : uint64 (usec * 12079595) = (usec * 12079595 + 18446744073709551616).toNat := by
    rw [uint64, ← Int.add_emod_right, Int.emod_eq_of_lt (by omega) (by omega)]
  rw [relTimeToPcr_eq, hwrap, int64_of_range (by omega) (by omega)]
  omega

/-! ### The round trip -/

/-- The tics after the way back, when nothing wraps. -/
def back (pcr : Int) : Int := pcr * 372827022 / 33554432 * 12079595 / 134217728

/-- A trip back never gives more than there was. -/
theorem back_le {pcr : Int} (h : 0 ≤ pcr) : back pcr ≤ pcr := by
  unfold back
  omega

/-- The four truncations together lose at most `1 + pcr / 2 ^ 24` tics. -/
theorem le_back {pcr : Int} (h : 0 ≤ pcr) : 16777216 * (pcr - back pcr) ≤ 16777216 + pcr := by
  have hfirst : pcr * 372827022 < 33554432 * (pcr * 372827022 / 33554432) + 33554432 := by omega
  unfold back
  generalize pcr * 372827022 / 33554432 = usec at hfirst ⊢
  have hsecond : usec * 12079595 < 134217728 * (usec * 12079595 / 134217728) + 134217728 := by
    omega
  generalize usec * 12079595 / 134217728 = tics at hsecond ⊢
  -- the loss is an integer below `1.1 + 0.74 * pcr / 2 ^ 24`
  by_cases hone : pcr - tics ≤ 1
  · omega
  · omega

section RoundTrip
variable {pcr : Int} (hlo : -8589934592 < pcr) (hhi : pcr < 8589934592)
include hlo hhi

/-- The trip keeps its bounds for tics that are not negative. -/
theorem roundTrip_of_nonneg (h : 0 ≤ pcr) : RoundTrip pcr where
  pcrProduct := pcrProduct_fits hlo hhi
  usecProduct := usecProduct_fits hlo hhi
  close := by
    have husec := usec_pcrToRelTime hlo hhi
    have hback : relTimeToPcr (pcrToRelTime pcr) = back pcr := by
      show relTimeToPcr ⟨(pcrToRelTime pcr).usec⟩ = _
      rw [relTimeToPcr_of_nonneg (by omega) (by omega), husec, back]
    have hle := back_le h
    have hloss := le_back h
    rw [hback, abs_of_nonneg h, abs_of_nonpos (by omega)]
    omega

/-- Negative tics come back near `2 ^ 37`. -/
theorem far_of_neg (h : pcr < 0) :
    137438953472 - 8192 ≤ relTimeToPcr (pcrToRelTime pcr) - pcr := by
  have husec := usec_pcrToRelTime hlo hhi
  show 137438953472 - 8192 ≤ relTimeToPcr ⟨(pcrToRelTime pcr).usec⟩ - pcr
  rw [relTimeToPcr_of_neg (by omega) (by omega), husec]
  omega

/-- The conversions are inverse up to rounding exactly for tics that are not negative. -/
theorem roundTrip_iff : RoundTrip pcr ↔ 0 ≤ pcr := by
  constructor
  · intro hclose
    by_contra hneg
    have hfar := far_of_neg hlo hhi (not_le.mp hneg)
    have hbound := hclose.close
    rw [abs_of_nonneg (by omega), abs_of_neg (not_le.mp hneg)] at hbound
    omega
  · exact roundTrip_of_nonneg hlo hhi

end RoundTrip

/-- One tic before zero: 12 microseconds, and `2 ^ 37 - 2` tics back. -/
theorem not_roundTrip_neg_one :
    pcrToRelTime (-1) = ⟨-12⟩ ∧ relTimeToPcr ⟨-12⟩ = 137438953470 ∧ ¬ RoundTrip (-1) := by
  refine ⟨by decide, by decide, fun hclose => ?_⟩
  have hbound := hclose.close
  have htrip : relTimeToPcr (pcrToRelTime (-1)) = 137438953470 := by decide
  rw [htrip] at hbound
  norm_num at hbound

/-- One second of tics comes back one tic short. -/
theorem roundTrip_second : RoundTrip 90000 ∧ relTimeToPcr (pcrToRelTime 90000) = 89999 :=
  ⟨(roundTrip_iff (by decide) (by decide)).mpr (by decide), by decide⟩

end MyTestFiles.Proofs.VamTime
