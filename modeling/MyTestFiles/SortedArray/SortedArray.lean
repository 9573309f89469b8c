import MyTestFiles.Lib.CInt
import MyTestFiles.Lib.Loop

/-!
# `MyTestFiles.SortedArray.SortedArray`: the sorted arrays of `sorted_array.c`

An array is the list of all its cells, of which the first `count` are in use. The bounds of
the array are not checked by the code: an access outside the cells is a fault (`none`).
A `ulong` has `bits` bits. An index that the code never makes negative is a natural number,
any other `int` is an `Int` wrapped by `int32`.

* The one-dimensional search scans short intervals and halves long ones. Its two indices are
  `int`s, and so is their sum.
* The search for a pair starts with the first occurrence of the first component and scans from
  there on.
* An addition shifts the entries behind its place up by one, from the last on. The arrays must
  have room, which the code leaves to its callers.

`addAll` and `addAll2` are histories of additions to an array without entries, one after the
other. The first kind counts in a `ushort`, which wraps, and the second in an `int`.
-/

set_option autoImplicit false

namespace MyTestFiles.SortedArray

open MyTestFiles.Lib

/-- `ulong` -/
abbrev Ulong (bits : Nat) := Fin (2 ^ bits)

section SortedArray
variable {bits : Nat}

/-- `array[index] = number` -/
def store (array : List (Ulong bits)) (index : Nat) (number : Ulong bits) :
    Option (List (Ulong bits)) :=
  if index < array.length then some (array.set index number) else none

/-! ### One array -/

/-- `for (j = *count; j > index; --j) array[j] = array[j-1];`, from `j` down. -/
def shiftUp (array : List (Ulong bits)) (index : Nat) : Nat → Option (List (Ulong bits))
  | 0 => some array
  | j + 1 =>
      if j + 1 > index then do
        let number ← array[j]?
        let array ← store array (j + 1) number
        shiftUp array index j
      else some array

/-- One pass of the loop in `sorted_array_add`. The loop leaves with the shifted array and
the index for the number, or with `none` where the function returns. -/
def addPass (array : List (Ulong bits)) (count : Nat) (number : Ulong bits) (index : Nat) :
    Option (Pass Nat (Option (List (Ulong bits) × Nat))) :=
  if index < count then do
    let entry ← array[index]?
    if entry < number then some (.again (index + 1))
    else if entry = number then some (.done none)
    else do
      let array ← shiftUp array index count
      some (.done (some (array, index)))
  else some (.done (some (array, index)))

/-- `sorted_array_add`. The `ushort` counter wraps. -/
def sortedArrayAdd (array : List (Ulong bits)) (count : Nat) (number : Ulong bits) :
    Option (List (Ulong bits) × Nat) := do
  match ← loop (addPass array count number) (count + 1) 0 with
  | none => some (array, count)
  | some (array, index) =>
      let array ← store array index number
      some (array, (count + 1) % 65536)

/-! ### The search -/

/-- The length up to which an interval is scanned. -/
def minBinarySearch : Int := 4

/-- `for (; i <= j; i++) { .. }` with `left` entries left to look at, and the return after
it. -/
def scanUp (array : List (Ulong bits)) (number : Ulong bits) : Nat → Nat → Option (Bool × Nat)
  | 0, i => some (false, i)
  | left + 1, i => do
      let entry ← array[i]?
      if entry < number then scanUp array number left (i + 1)
      else if entry > number then some (false, i)
      else some (true, i)

/-- `while (k > 0 && array[k - 1] == number) k--;` -/
def walkBack (array : List (Ulong bits)) (number : Ulong bits) : Nat → Option Nat
  | 0 => some 0
  | k + 1 => do
      let entry ← array[k]?
      if entry = number then walkBack array number k else some (k + 1)

/-- One pass of the loop in `sorted_array_get_index`. -/
def getIndexPass (array : List (Ulong bits)) (number : Ulong bits) :
    Nat × Int → Option (Pass (Nat × Int) (Bool × Nat))
  | (i, j) =>
      if j - i < minBinarySearch then do
        let found ← scanUp array number (j + 1 - i).toNat i
        some (.done found)
      else
        let k := int32 (i + j) / 2
        if k < 0 then none
        else do
          let entry ← array[k.toNat]?
          if number > entry then some (.again (k.toNat + 1, j))
          else if number < entry then some (.again (i, k - 1))
          else do
            let first ← walkBack array number k.toNat
            some (.done (true, first))

/-- `sorted_array_get_index`: the value returned and `*pindex`. -/
def sortedArrayGetIndex (array : List (Ulong bits)) (count : Nat) (number : Ulong bits) :
    Option (Bool × Nat) :=
  loop (getIndexPass array number) (count + 1) (0, (count : Int) - 1)

/-! ### Two arrays -/

/-- One pass of the loop in `sorted_array_get_index_2`. The entry is read before the index
is compared with the count. -/
def getIndex2Pass (array1 array2 : List (Ulong bits)) (count : Nat)
    (number1 number2 : Ulong bits) (index : Nat) : Option (Pass Nat (Bool × Nat)) := do
  let entry1 ← array1[index]?
  if entry1 = number1 ∧ index < count then do
    let entry2 ← array2[index]?
    if entry2 < number2 then some (.again (index + 1))
    else if entry2 > number2 then some (.done (false, index))
    else some (.done (true, index))
  else some (.done (false, index))

/-- `sorted_array_get_index_2` -/
def sortedArrayGetIndex2 (array1 array2 : List (Ulong bits)) (count : Nat)
    (number1 number2 : Ulong bits) : Option (Bool × Nat) := do
  let (found, index) ← sortedArrayGetIndex array1 count number1
  if !found then some (false, index)
  else loop (getIndex2Pass array1 array2 count number1 number2) (count - index + 1) index

/-- The shift of `sorted_array_add_2`, of both arrays from `j` down. -/
def shiftUp2 (array1 array2 : List (Ulong bits)) (index : Nat) :
    Nat → Option (List (Ulong bits) × List (Ulong bits))
  | 0 => some (array1, array2)
  | j + 1 =>
      if j + 1 > index then do
        let number1 ← array1[j]?
        let array1 ← store array1 (j + 1) number1
        let number2 ← array2[j]?
        let array2 ← store array2 (j + 1) number2
        shiftUp2 array1 array2 index j
      else some (array1, array2)

/-- A pair of sorted arrays with their count. -/
structure Arrays2 (bits : Nat) where
  array1 : List (Ulong bits)
  array2 : List (Ulong bits)
  count : Nat
  deriving DecidableEq

/-- `sorted_array_add_2`. The counter is an `int`. -/
def sortedArrayAdd2 (arrays : Arrays2 bits) (number1 number2 : Ulong bits) :
    Option (Arrays2 bits) := do
  let (found, index) ←
    sortedArrayGetIndex2 arrays.array1 arrays.array2 arrays.count number1 number2
  if found then some arrays
  else
    let (array1, array2) ← shiftUp2 arrays.array1 arrays.array2 index arrays.count
    let array1 ← store array1 index number1
    let array2 ← store array2 index number2
    let count := int32 (arrays.count + 1)
    if count < 0 then none else some { array1, array2, count := count.toNat }

/-! ### Histories -/

/-- The array and its count after a sequence of numbers is added, from an empty array. -/
def addAll (array : List (Ulong bits)) (numbers : List (Ulong bits)) :
    Option (List (Ulong bits) × Nat) :=
  numbers.foldlM (fun (array, count) number => sortedArrayAdd array count number) (array, 0)

/-- The same for pairs. -/
def addAll2 (array1 array2 : List (Ulong bits)) (pairs : List (Ulong bits × Ulong bits)) :
    Option (Arrays2 bits) :=
  pairs.foldlM (fun arrays pair => sortedArrayAdd2 arrays pair.1 pair.2)
    { array1, array2, count := 0 }

end SortedArray

end MyTestFiles.SortedArray
