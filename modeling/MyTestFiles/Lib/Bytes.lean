import Mathlib

/-!
# `MyTestFiles.Lib.Bytes`: a buffer of bytes and its little-endian numbers

A buffer is a list of bytes and an address in it an index. `Holds buf p bs` says that the bytes
`bs` stand at `p`. `storeBytes` overwrites bytes, or faults where they do not fit, and `loadLE`
reads a little-endian number. What a store writes is held afterwards (`Holds.of_store`), and what
is held elsewhere stays (`Holds.store`).

The numbers are little-endian because that is the order the messages are kept in while a program
works on them. `toLE k n` are the `k` bytes of `n` modulo `256 ^ k`, and `ofLE` reads them back
(`ofLE_toLE_append`).

A store outside the buffer is `none`, so a fault is visible in the type and every statement about
a store says under which condition there is none.

`Holds` is the interface between layouts and reads. It is closed under taking parts (`Holds.take`,
`Holds.drop`) and under stores elsewhere, so a proof about a message goes from what was stored to
what is read without ever looking at the whole buffer.
-/

set_option autoImplicit false

namespace MyTestFiles.Lib

section Bytes
variable {buf buf' bs cs : List UInt8} {p q n k : Nat}

/-! ### Bytes at an address -/

/-- The bytes `bs` stand in the buffer from `p` on. -/
def Holds (buf : List UInt8) (p : Nat) (bs : List UInt8) : Prop := bs <+: buf.drop p

/-- Bytes that stand in a buffer are inside it. -/
theorem Holds.length_le (h : Holds buf p bs) (hbs : bs ≠ []) : p + bs.length ≤ buf.length := by
  have hle := List.IsPrefix.length_le h
  have hpos := List.length_pos_of_ne_nil hbs
  rw [List.length_drop] at hle
  omega

/-- Some bytes and the bytes behind them. -/
theorem holds_append_iff :
    Holds buf p (bs ++ cs) ↔ Holds buf p bs ∧ Holds buf (p + bs.length) cs := by
  unfold Holds
  constructor
  · rintro ⟨post, hpost⟩
    rw [List.append_assoc] at hpost
    refine ⟨⟨cs ++ post, hpost⟩, ⟨post, ?_⟩⟩
    rw [← List.drop_drop, ← hpost, List.drop_left]
  · rintro ⟨⟨post, hpost⟩, ⟨post', hpost'⟩⟩
    refine ⟨post', ?_⟩
    rw [← List.drop_drop, ← hpost, List.drop_left] at hpost'
    rw [List.append_assoc, hpost', hpost]

/-- A front part of what is held is held at the same place. -/
theorem Holds.take (h : Holds buf p bs) (k : Nat) : Holds buf p (bs.take k) :=
  (List.take_prefix k bs).trans h

/-- A back part of what is held is held further on. -/
theorem Holds.drop (h : Holds buf p bs) (hk : k ≤ bs.length) : Holds buf (p + k) (bs.drop k) := by
  rw [← List.take_append_drop k bs, holds_append_iff] at h
  have hlen : (bs.take k).length = k := by rw [List.length_take, min_eq_left hk]
  rw [hlen] at h
  exact h.2

/-- The bytes are what is read there. -/
theorem Holds.eq_take_drop (h : Holds buf p bs) : (buf.drop p).take bs.length = bs :=
  (List.prefix_iff_eq_take.mp h).symm

/-- A buffer holds what is read from it. -/
theorem holds_take_drop (buf : List UInt8) (p n : Nat) : Holds buf p ((buf.drop p).take n) :=
  List.take_prefix n _

/-- What a buffer holds, it holds when it is extended. -/
theorem Holds.append_right (h : Holds buf p bs) (tail : List UInt8) :
    Holds (buf ++ tail) p bs := by
  unfold Holds
  rw [List.drop_append]
  exact h.trans (List.prefix_append _ _)

/-! ### Stores -/

/-- `bs` over the bytes at `p`. -/
def storeBytes (buf : List UInt8) (p : Nat) (bs : List UInt8) : Option (List UInt8) :=
  if p + bs.length ≤ buf.length then some (buf.take p ++ bs ++ buf.drop (p + bs.length)) else none

/-- A store inside the buffer replaces just the bytes at its place. -/
theorem storeBytes_of_le (h : p + bs.length ≤ buf.length) :
    storeBytes buf p bs = some (buf.take p ++ bs ++ buf.drop (p + bs.length)) := if_pos h

/-- A store that does not fault is inside the buffer. -/
theorem storeBytes_eq_some (h : storeBytes buf p bs = some buf') :
    p + bs.length ≤ buf.length ∧ buf' = buf.take p ++ bs ++ buf.drop (p + bs.length) := by
  unfold storeBytes at h
  split at h
  · next hle => exact ⟨hle, (Option.some.inj h).symm⟩
  · cases h

/-- A store keeps the length of the buffer. -/
theorem length_of_storeBytes (h : storeBytes buf p bs = some buf') : buf'.length = buf.length := by
  obtain ⟨hle, rfl⟩ := storeBytes_eq_some h
  simp only [List.length_append, List.length_take, List.length_drop]
  omega

/-- What lies behind a store is unchanged. -/
theorem drop_of_storeBytes (h : storeBytes buf p bs = some buf') (hq : p + bs.length ≤ q) :
    buf'.drop q = buf.drop q := by
  obtain ⟨hle, rfl⟩ := storeBytes_eq_some h
  have hlen : (buf.take p ++ bs).length = p + bs.length := by
    rw [List.length_append, List.length_take]
    omega
  rw [List.drop_append, hlen, List.drop_eq_nil_of_le (by omega), List.nil_append, List.drop_drop]
  congr 1
  omega

/-- What lies in front of a store is unchanged. -/
theorem take_of_storeBytes (h : storeBytes buf p bs = some buf') (hq : q ≤ p) :
    buf'.take q = buf.take q := by
  obtain ⟨hle, rfl⟩ := storeBytes_eq_some h
  have hlen : (buf.take p).length = p := by rw [List.length_take]; omega
  rw [List.append_assoc, List.take_append_of_le_length (by omega), List.take_take,
    min_eq_left hq]

/-- What was stored is held. -/
theorem Holds.of_store (h : storeBytes buf p bs = some buf') : Holds buf' p bs := by
  obtain ⟨hle, rfl⟩ := storeBytes_eq_some h
  have hlen : (buf.take p).length = p := by rw [List.length_take]; omega
  refine ⟨buf.drop (p + bs.length), ?_⟩
  rw [List.append_assoc, List.drop_left' hlen]

/-- A store elsewhere leaves what is held. -/
theorem Holds.store (h : Holds buf q cs) (hstore : storeBytes buf p bs = some buf')
    (hapart : q + cs.length ≤ p ∨ p + bs.length ≤ q) : Holds buf' q cs := by
  rcases hapart with hbefore | hbehind
  · -- the bytes are in the part in front of the store
    have htake := take_of_storeBytes hstore hbefore
    have heq := h.eq_take_drop
    rw [List.take_drop] at heq
    unfold Holds
    rw [← heq, ← htake, ← List.take_drop]
    exact List.take_prefix _ _
  · unfold Holds
    rw [drop_of_storeBytes hstore hbehind]
    exact h

/-! ### Little-endian numbers -/

/-- The number in the first `k` bytes of a list. -/
def ofLE : Nat → List UInt8 → Option Nat
  | 0, _ => some 0
  | _ + 1, [] => none
  | k + 1, b :: bs => (ofLE k bs).map fun n => b.toNat + 256 * n

/-- The number in the `k` bytes at `p`. -/
def loadLE (k : Nat) (buf : List UInt8) (p : Nat) : Option Nat := ofLE k (buf.drop p)

/-- The `k` bytes of a number. What does not fit is cut off. -/
def toLE : Nat → Nat → List UInt8
  | 0, _ => []
  | k + 1, n => UInt8.ofNat n :: toLE k (n / 256)

/-- A number of `k` bytes has `k` bytes. -/
@[simp] theorem length_toLE (k n : Nat) : (toLE k n).length = k := by
  induction k generalizing n with
  | zero => rfl
  | succ k ih => simp [toLE, ih]

/-- The bytes of a number are read back as that number, modulo what the bytes can tell apart. -/
theorem ofLE_toLE_append (k n : Nat) (rest : List UInt8) :
    ofLE k (toLE k n ++ rest) = some (n % 256 ^ k) := by
  induction k generalizing n with
  | zero => simp [ofLE, Nat.mod_one]
  | succ k ih =>
      have hbyte : (UInt8.ofNat n).toNat = n % 256 := by simp
      rw [toLE, List.cons_append, ofLE, ih, Option.map_some, hbyte, pow_succ', Nat.mod_mul]

/-- What stands behind a number does not change how it is read. -/
theorem ofLE_append {k : Nat} {bs rest : List UInt8} {n : Nat} (h : ofLE k bs = some n) :
    ofLE k (bs ++ rest) = some n := by
  induction k generalizing bs n with
  | zero => simpa [ofLE] using h
  | succ k ih =>
      cases bs with
      | nil => simp [ofLE] at h
      | cons b bs =>
          obtain ⟨m, hm, rfl⟩ := Option.map_eq_some_iff.mp h
          rw [List.cons_append, ofLE, ih hm, Option.map_some]

/-- A number of `k` bytes can be read just where there are `k` bytes. -/
theorem isSome_ofLE_iff (k : Nat) (bs : List UInt8) : (ofLE k bs).isSome ↔ k ≤ bs.length := by
  induction k generalizing bs with
  | zero => simp [ofLE]
  | succ k ih =>
      cases bs with
      | nil => simp [ofLE]
      | cons b bs => simp [ofLE, ih]

/-- A number can be read where its bytes are in the buffer. -/
theorem isSome_loadLE_iff (hk : 0 < k) : (loadLE k buf p).isSome ↔ p + k ≤ buf.length := by
  rw [loadLE, isSome_ofLE_iff, List.length_drop]
  omega

/-- A number is read from the bytes that are held. -/
theorem Holds.loadLE (h : Holds buf p bs) (hn : ofLE k bs = some n) : loadLE k buf p = some n := by
  obtain ⟨post, hpost⟩ := h
  rw [Lib.loadLE, ← hpost, ofLE_append hn]

/-- A number that a buffer holds is read back from it. -/
theorem loadLE_of_holds_toLE (h : Holds buf p (toLE k n)) :
    loadLE k buf p = some (n % 256 ^ k) := by
  obtain ⟨post, hpost⟩ := h
  rw [loadLE, ← hpost, ofLE_toLE_append]

end Bytes

end MyTestFiles.Lib
