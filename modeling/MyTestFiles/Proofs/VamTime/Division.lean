import MyTestFiles.Proofs.VamTime.Pcr

/-!
# `MyTestFiles.Proofs.VamTime.Division`: quotient and remainder of two times

`rel_mod_rel_time` subtracts a multiple of the divisor with the quotient of 64 bits
(`relModRelTime_eq`), and `rel_div_rel_time` returns that quotient as an `int`. The two
describe one division exactly when the quotient fits in an `int`. `QuotientFits` says so
of the two times (`quotientFits_iff`), and `divisionLaw_iff` is the result.

The division of 64 bits traps for a divisor of zero, and for the smallest time divided by minus
one. There is no quotient then, so the lemmas ask for neither.

* `DivisionLaw` is the law of the two functions together: the quotient that is returned, times the
  divisor, plus the remainder that is returned, is the dividend, and the remainder is smaller than
  the divisor.
* The remainder is always right, because the quotient that it uses is the one of 64 bits. So the
  law fails just where the conversion to an `int` changes the quotient.
* The bound on the quotient depends on its sign, as an `int` has one negative number more.
  `QuotientFits` therefore has two cases, and compares lengths without a division.

The counterexample is a time of more than an hour divided by a microsecond.
-/

set_option autoImplicit false

namespace MyTestFiles.Proofs.VamTime

open MyTestFiles.Lib
open MyTestFiles.VamTime

/-- `t0` is the quotient times `t1` plus a remainder that is smaller than `t1`. -/
def DivisionLaw (t0 t1 : RelTime) : Prop :=
  ∃ quotient remainder, relDivRelTime t0 t1 = some quotient ∧
    relModRelTime t0 t1 = some remainder ∧
    quotient * t1.usec + remainder.usec = t0.usec ∧ |remainder.usec| < |t1.usec|

/-- `t0` is less than `2 ^ 31` times as long as `t1`, or `2 ^ 31 + 1` times where just one of
the two is negative. -/
def QuotientFits (t0 t1 : RelTime) : Prop :=
  if 0 ≤ t0.usec * t1.usec then |t0.usec| < 2147483648 * |t1.usec|
  else |t0.usec| < 2147483649 * |t1.usec|

instance (t0 t1 : RelTime) : Decidable (QuotientFits t0 t1) := by
  unfold QuotientFits
  infer_instance

section Division
variable {t0 t1 : RelTime}

/-- The condition on the two times says that their quotient is an `int`. -/
theorem quotientFits_iff (hne : t1.usec ≠ 0) :
    QuotientFits t0 t1 ↔
      -2147483648 ≤ t0.usec.tdiv t1.usec ∧ t0.usec.tdiv t1.usec < 2147483648 := by
  have hpos : 0 < |t1.usec| := abs_pos.mpr hne
  have hnonneg : 0 ≤ |t0.usec| / |t1.usec| := Int.ediv_nonneg (abs_nonneg _) hpos.le
  unfold QuotientFits
  by_cases hsign : 0 ≤ t0.usec * t1.usec
  · rw [if_pos hsign, tdiv_of_mul_nonneg hsign, ← Int.ediv_lt_iff_lt_mul hpos]
    omega
  · rw [if_neg hsign, tdiv_of_mul_neg (not_le.mp hsign), ← Int.ediv_lt_iff_lt_mul hpos]
    omega

/-- The quotient as it is returned. -/
theorem relDivRelTime_eq (hne : t1.usec ≠ 0)
    (hpair : ¬ (t0.usec = -9223372036854775808 ∧ t1.usec = -1)) :
    relDivRelTime t0 t1 = some (int32 (t0.usec.tdiv t1.usec)) := by
  unfold relDivRelTime
  rw [div64_eq_some hne hpair]
  rfl

/-- The product and the difference do not wrap, so the result is the remainder. -/
theorem relModRelTime_eq (hfits : Fits64 t0.usec) (hne : t1.usec ≠ 0)
    (hpair : ¬ (t0.usec = -9223372036854775808 ∧ t1.usec = -1)) :
    relModRelTime t0 t1 = some ⟨t0.usec.tmod t1.usec⟩ := by
  obtain ⟨hlo, hhi⟩ := hfits
  -- the product lies between zero and `t0`
  have hsplit := Int.tdiv_mul_add_tmod t0.usec t1.usec
  obtain ⟨hpos, hneg⟩ := tdiv_mul_range (x := t0.usec) (y := t1.usec)
  have hproduct : int64 (t0.usec.tdiv t1.usec * t1.usec) = t0.usec.tdiv t1.usec * t1.usec :=
    int64_of_range (by omega) (by omega)
  have hdifference : int64 (t0.usec - t0.usec.tdiv t1.usec * t1.usec) = t0.usec.tmod t1.usec := by
    rw [int64_of_range (by omega) (by omega)]
    omega
  unfold relModRelTime
  rw [div64_eq_some hne hpair]
  show some (RelTime.mk (int64 (t0.usec - int64 (t0.usec.tdiv t1.usec * t1.usec)))) = _
  rw [hproduct, hdifference]

/-- Quotient and remainder describe one division exactly when the quotient fits. -/
theorem divisionLaw_iff (hfits : Fits64 t0.usec) (hne : t1.usec ≠ 0)
    (hpair : ¬ (t0.usec = -9223372036854775808 ∧ t1.usec = -1)) :
    DivisionLaw t0 t1 ↔ QuotientFits t0 t1 := by
  have hsplit := Int.tdiv_mul_add_tmod t0.usec t1.usec
  rw [quotientFits_iff hne, ← int32_eq_self_iff]
  constructor
  · rintro ⟨quotient, remainder, hdiv, hmod, hsum, -⟩
    rw [relDivRelTime_eq hne hpair, Option.some_inj] at hdiv
    rw [relModRelTime_eq hfits hne hpair, Option.some_inj] at hmod
    subst hdiv
    subst hmod
    -- two multiples of the divisor leave the same remainder
    have hmultiples : int32 (t0.usec.tdiv t1.usec) * t1.usec = t0.usec.tdiv t1.usec * t1.usec :=
      add_right_cancel (hsum.trans hsplit.symm)
    exact Int.eq_of_mul_eq_mul_right hne hmultiples
  · intro hfit
    refine ⟨_, _, relDivRelTime_eq hne hpair, relModRelTime_eq hfits hne hpair, ?_,
      abs_tmod_lt hne⟩
    rw [hfit]
    exact hsplit

end Division

/-- An hour and a bit by one microsecond: the quotient wraps and the law is off by `2 ^ 32`. -/
theorem not_divisionLaw :
    relDivRelTime ⟨4294967296⟩ ⟨1⟩ = some 0 ∧ relModRelTime ⟨4294967296⟩ ⟨1⟩ = some ⟨0⟩ ∧
      ¬ DivisionLaw ⟨4294967296⟩ ⟨1⟩ := by
  refine ⟨by decide, by decide, ?_⟩
  rintro ⟨quotient, remainder, hdiv, hmod, hsum, -⟩
  have hquotient : relDivRelTime ⟨4294967296⟩ ⟨1⟩ = some 0 := by decide
  have hremainder : relModRelTime ⟨4294967296⟩ ⟨1⟩ = some ⟨0⟩ := by decide
  rw [hquotient, Option.some_inj] at hdiv
  rw [hremainder, Option.some_inj] at hmod
  subst hdiv
  subst hmod
  exact absurd hsum (by decide)

/-- A negative hour by seven seconds. -/
theorem divisionLaw_hour :
    relDivRelTime ⟨-3600000000⟩ ⟨7000000⟩ = some (-514) ∧ DivisionLaw ⟨-3600000000⟩ ⟨7000000⟩ :=
  ⟨by decide, (divisionLaw_iff ⟨by decide, by decide⟩ (by decide) (by decide)).mpr (by decide)⟩

end MyTestFiles.Proofs.VamTime
