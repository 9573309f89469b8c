import MyTestFiles.Lib.WordBits

/-!
# `MyTestFiles.BitTest.BitBuffer`: the bit buffer of `bit-test.cpp`

A buffer of bytes that is read and written bit by bit, and the two functions that read and
write a field of up to 32 bits with its high bit first. A failed assertion and a shift by
the width of an `int` or more are faults (`none`).

* Position `p` is bit `p % 8` of byte `p / 8`, counted from the low end of the byte. `get` and
  `set` test that the byte exists, which is the assertion of the source.
* The loops of `get_bits` and `set_bits` go over the positions of the field in order. Pass `i`
  moves the bit that is worth `2 ^ (size - 1 - i)`, by a shift of an `int`.
* A field of more than 32 bits takes a shift that is not defined, so both functions have no result
  there.

The array at the end is the test input of the source. The proofs about fields are in
`Proofs.BitTest.Fields`, and those about streams of bytes in `Proofs.BitTest.Stream`.
-/

set_option autoImplicit false

namespace MyTestFiles.BitTest

open MyTestFiles.Lib

/-- `unsigned char` -/
abbrev UnsignedChar := BitVec 8

/-- `unsigned` -/
abbrev Unsigned := BitVec 32

/-- The bytes of the buffer. Their number is `m_size`. -/
structure BitBuffer where
  data : List UnsignedChar
  deriving Repr, DecidableEq

namespace BitBuffer

/-- `byte_size` -/
def byteSize (buffer : BitBuffer) : Nat := buffer.data.length

/-- `bit_size` -/
def bitSize (buffer : BitBuffer) : Nat := buffer.byteSize * 8

/-- `get`. The byte must exist. -/
def get (buffer : BitBuffer) (bitpos : Nat) : Option Bool := do
  let byte ← buffer.data[bitpos / 8]?
  some (byte &&& (1#8 <<< (bitpos % 8)) != 0)

/-- `set` -/
def set (buffer : BitBuffer) (bitpos : Nat) (val : Bool) : Option BitBuffer := do
  let byte ← buffer.data[bitpos / 8]?
  let byte := if val then byte ||| (1#8 <<< (bitpos % 8)) else byte &&& ~~~(1#8 <<< (bitpos % 8))
  some { data := buffer.data.set (bitpos / 8) byte }

end BitBuffer

/-- `value << count` for an `int` of 32 bits, read as an `unsigned`. -/
def shiftLeft (value : Unsigned) (count : Nat) : Option Unsigned :=
  if count < 32 then some (value <<< count) else none

/-- One pass of the loop in `get_bits`. -/
def getBitsPass (buffer : BitBuffer) (offset bitSize : Nat) (bits : Unsigned) (i : Nat) :
    Option Unsigned := do
  let bit ← buffer.get (offset + i)
  let shifted ← shiftLeft (if bit then 1 else 0) (bitSize - 1 - i)
  some (bits ||| shifted)

/-- `get_bits`: the first bit read goes to the high end. -/
def getBits (buffer : BitBuffer) (offset bitSize : Nat) : Option Unsigned :=
  (List.range bitSize).foldlM (getBitsPass buffer offset bitSize) 0

/-- One pass of the loop in `set_bits`. -/
def setBitsPass (offset bitSize : Nat) (bits : Unsigned) (buffer : BitBuffer) (i : Nat) :
    Option BitBuffer := do
  let mask ← shiftLeft 1 (bitSize - 1 - i)
  let bitValue := bits &&& mask != 0
  buffer.set (offset + i) bitValue

/-- `set_bits`: the high bit is written first. -/
def setBits (buffer : BitBuffer) (offset bitSize : Nat) (bits : Unsigned) : Option BitBuffer :=
  (List.range bitSize).foldlM (setBitsPass offset bitSize bits) buffer

/-- `UNIT_TEST_EAC3_71_STANDARD_VALID_ARR`: the header of a 7.1 DD+ bitstream. -/
def unitTestEac371StandardValidArr : List UnsignedChar :=
  [0x0b, 0x77, 0x03, 0x5b, 0x3f, 0x86, 0xff, 0xf6, 0x49, 0x00, 0x10]

end MyTestFiles.BitTest
