import MyTestFiles.Lib.CInt

/-!
# `MyTestFiles.TestWrap.Timestamp`: timestamps that wrap

The timestamps of `test-wrap.cpp`. A timestamp has a type, which tells the largest timestamp
of its clock, and the difference of two timestamps of one type is corrected by that largest
timestamp when it is more than half of it.

* PTS values are those of a clock of 33 bits, and `MAX_PTS_VAL` is the largest of them, not their
  number. The other two types of timestamps share `MAX_HNS`.
* `DiffTimeSigned` takes the plain difference in a signed integer of 64 bits. Where its absolute
  value is more than half of the largest timestamp it adds or takes away that largest timestamp,
  by the sign.
* Two timestamps of different types fail an assertion (`none`).

The comments and the tests of the source take the largest value as the modulus of the clock, and
the model has that value from the source.
-/

set_option autoImplicit false

namespace MyTestFiles.TestWrap

open MyTestFiles.Lib

/-- `MAX_PTS_VAL`, `(0x1LL << 33) - 1` -/
def maxPtsVal : Int := 8589934591

/-- `MAX_HNS` -/
def maxHns : Int := 0x7FFFFFFFFFFFFFFF

/-- `eTimestampType` -/
inductive TimestampType where
  | pts
  | hns
  | msec
  deriving Repr, DecidableEq

/-- `tTimestamp` -/
structure Timestamp where
  type : TimestampType
  value : Int
  deriving Repr, DecidableEq

/-- `llabs` -/
def llabs (value : Int) : Int := int64 |value|

/-- `DiffTimeSigned`. Timestamps of two types fail the assertion. -/
def diffTimeSigned (time1 time2 : Timestamp) : Option Int :=
  if time1.type = time2.type then
    let maxTimestamp := if time1.type = .pts then maxPtsVal else maxHns
    let diff := int64 (time1.value - time2.value)
    let wrap := llabs diff > maxTimestamp / 2
    if wrap then
      if diff > 0 then some (int64 (diff - maxTimestamp))
      else if diff < 0 then some (int64 (diff + maxTimestamp))
      else some diff
    else some diff
  else none

end MyTestFiles.TestWrap
