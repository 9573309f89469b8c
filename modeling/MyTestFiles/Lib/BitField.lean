import Mathlib

/-!
# `MyTestFiles.Lib.BitField`: fields of a memory

A memory of cells is a function of the position, and a field is an interval of positions.
`writeField` writes a value into a field, cell by cell (`writeField_succ`). What was in the
field can be written back (`writeField_self`), and writes to disjoint fields commute
(`writeField_comm`).

The value is a function too, counted from the start of the field, so a field may be of any size
and the cells of any type. What a field means as a number is no concern of this module.

Reading a field back is evaluation of the memory at its positions, so there is no separate read
function, and a law such as "what was written is read back" is `writeField_of_inField`. The frame
of a write is `writeField_of_not_inField`, and it is stated for every position outside the field.

`writeField_congr` says that two values which agree on the field give the same write, so a value
may be changed outside of the field at will.
-/

set_option autoImplicit false

namespace MyTestFiles.Lib

/-- The positions of the field of `size` cells at `offset`. -/
def InField (offset size p : Nat) : Prop := offset ≤ p ∧ p < offset + size

instance (offset size p : Nat) : Decidable (InField offset size p) :=
  inferInstanceAs (Decidable (_ ∧ _))

section Field
variable {α : Type*}

/-- The memory with `value` in the field of `size` cells at `offset`. -/
def writeField (memory : Nat → α) (offset size : Nat) (value : Nat → α) (p : Nat) : α :=
  if InField offset size p then value (p - offset) else memory p

variable {memory value : Nat → α} {offset size : Nat}

/-- Inside the field the memory has the value. -/
theorem writeField_of_inField {p : Nat} (h : InField offset size p) :
    writeField memory offset size value p = value (p - offset) :=
  if_pos h

/-- Outside it is as before. -/
theorem writeField_of_not_inField {p : Nat} (h : ¬ InField offset size p) :
    writeField memory offset size value p = memory p :=
  if_neg h

/-- A field of no cells has nothing written to it. -/
theorem writeField_zero (memory : Nat → α) (offset : Nat) (value : Nat → α) :
    writeField memory offset 0 value = memory := by
  funext p
  refine writeField_of_not_inField ?_
  unfold InField
  omega

/-- A field with one more cell. -/
theorem writeField_succ (memory : Nat → α) (offset size : Nat) (value : Nat → α) :
    writeField memory offset (size + 1) value =
      Function.update (writeField memory offset size value) (offset + size) (value size) := by
  funext p
  by_cases hlast : p = offset + size
  · have h : InField offset (size + 1) p := by
      unfold InField
      omega
    subst hlast
    rw [Function.update_self, writeField_of_inField h, Nat.add_sub_cancel_left]
  · have hiff : InField offset (size + 1) p ↔ InField offset size p := by
      unfold InField
      omega
    rw [Function.update_of_ne hlast]
    exact if_congr hiff rfl rfl

/-- Writing back what is in the field. -/
theorem writeField_self (memory : Nat → α) (offset size : Nat) :
    writeField memory offset size (fun i => memory (offset + i)) = memory := by
  funext p
  by_cases h : InField offset size p
  · rw [writeField_of_inField h, Nat.add_sub_cancel' h.1]
  · exact writeField_of_not_inField h

/-- Only the cells of the field count. -/
theorem writeField_congr {value' : Nat → α} (h : ∀ i < size, value i = value' i) :
    writeField memory offset size value = writeField memory offset size value' := by
  funext p
  by_cases hp : InField offset size p
  · obtain ⟨hlow, hhigh⟩ := hp
    rw [writeField_of_inField ⟨hlow, hhigh⟩, writeField_of_inField ⟨hlow, hhigh⟩, h _ (by omega)]
  · rw [writeField_of_not_inField hp, writeField_of_not_inField hp]

/-- Writes to disjoint fields commute. -/
theorem writeField_comm {offset' size' : Nat} {value' : Nat → α}
    (hdisjoint : ∀ p, InField offset size p → ¬ InField offset' size' p) :
    writeField (writeField memory offset size value) offset' size' value' =
      writeField (writeField memory offset' size' value') offset size value := by
  funext p
  by_cases h : InField offset size p
  · rw [writeField_of_not_inField (hdisjoint p h), writeField_of_inField h,
      writeField_of_inField h]
  · rw [writeField_of_not_inField h]
    by_cases h' : InField offset' size' p
    · rw [writeField_of_inField h', writeField_of_inField h']
    · rw [writeField_of_not_inField h', writeField_of_not_inField h', writeField_of_not_inField h]

end Field

end MyTestFiles.Lib
