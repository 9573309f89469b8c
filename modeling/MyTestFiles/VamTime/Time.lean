import MyTestFiles.Lib.CInt

/-!
# `MyTestFiles.VamTime.Time`: relative times and 90 kHz clock tics

`vam_time.h` keeps a relative time in microseconds. The two conversions to and from tics of
the 90 kHz program clock multiply by a truncated fixed-point constant and shift. One
constant is signed and the other unsigned, and C does the second product in the unsigned
type. A time divided by a time is a number, which is returned as an `int`, and the remainder
is a time.

The constants are computed as the source computes them, so their truncation is that of the
compiler's arithmetic. Each conversion is one product and one shift in 64 bits, and
`relDivRelTime` and `relModRelTime` divide in 64 bits, where a divisor of zero traps (`none`).
-/

set_option autoImplicit false

namespace MyTestFiles.VamTime

open MyTestFiles.Lib

/-- `rel_time_t`. -/
structure RelTime where
  usec : Int
  deriving Repr, DecidableEq

/-- The fixed point of the constant to microseconds. -/
def pcrToUsecShift : Nat := 25

/-- The signed constant `(100 << 25) / 9`. -/
def pcrToUsecMult : Int := (100 <<< pcrToUsecShift) / 9

/-- The fixed point of the constant back. -/
def usecToPcrShift : Nat := 27

/-- The unsigned constant `(9 << 27) / 100`. -/
def usecToPcrMult : Nat := (9 <<< usecToPcrShift) / 100

/-- `pcr_to_rel_time`: a signed product and an arithmetic shift. -/
def pcrToRelTime (pcr : Int) : RelTime where
  usec := int64 (pcr * pcrToUsecMult) >>> pcrToUsecShift

/-- `rel_time_to_pcr`: `usec` is converted to the unsigned type of the constant, and the
shift is the logical one. -/
def relTimeToPcr (t : RelTime) : Int :=
  int64 (uint64 (uint64 t.usec * usecToPcrMult) >>> usecToPcrShift : Nat)

/-- `rel_div_rel_time`: the quotient of 64 bits is returned as an `int`. -/
def relDivRelTime (t0 t1 : RelTime) : Option Int := do
  let quotient ← div64 t0.usec t1.usec
  some (int32 quotient)

/-- `rel_mod_rel_time` -/
def relModRelTime (t0 t1 : RelTime) : Option RelTime := do
  let quotient ← div64 t0.usec t1.usec
  some { usec := int64 (t0.usec - int64 (quotient * t1.usec)) }

end MyTestFiles.VamTime
