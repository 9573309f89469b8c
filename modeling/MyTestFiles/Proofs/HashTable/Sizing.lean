import MyTestFiles.HashTable.HashTable

/-!
# `MyTestFiles.Proofs.HashTable.Sizing`: how many buckets a new table has

`new_hash_table` rounds the requested size up to a power of two with a shift of an `int`, and
passes the size on to `hash` in an `int`. Both go wrong beyond that type: the shift is
undefined from 2^31 on (`bucketCount_of_large`), and a power of two from 2^32 on becomes the
divisor 0 (`int32_two_pow`). `sizesRight_iff` says for which requests the table is right.

`requested` is the size that is asked for after the bounds of the source, and `bucketCount` what
the rounding makes of it. The width of a `long` is a parameter, at least 16 bits, so the result
covers both data models that the source is built for.

* `shiftCount_spec` says that the loop of the source counts the bits of the size, and so `1 << p2`
  is the next power of two.
* `SizesRight` states what the constructor owes: the number of buckets is the least power of two
  that is not below the request, and no hash divides by zero.
* The failing requests are of two kinds. A size above `2 ^ 30` that is no power of two takes a
  shift of an `int` that is undefined. A power of two from `2 ^ 32` on needs no shift, and then
  the divisor is 0.
-/

set_option autoImplicit false

namespace MyTestFiles.Proofs.HashTable

open MyTestFiles.Lib
open MyTestFiles.HashTable

/-! ### Powers of two -/

section Power
variable {n k : Nat}

/-- A power of two is its own rounding. -/
theorem isLeast_of_isPowerOfTwo (h : n.isPowerOfTwo) :
    IsLeast { m | m.isPowerOfTwo ∧ n ≤ m } n :=
  ⟨⟨h, Nat.le_refl n⟩, fun _ hm => hm.2⟩

/-- Between two powers of two the upper one is the least. -/
theorem isLeast_of_between (hlow : 2 ^ k < n) (hhigh : n ≤ 2 ^ (k + 1)) :
    IsLeast { m | m.isPowerOfTwo ∧ n ≤ m } (2 ^ (k + 1)) := by
  refine ⟨⟨⟨k + 1, rfl⟩, hhigh⟩, ?_⟩
  rintro m ⟨⟨j, rfl⟩, hj⟩
  have hkj : k < j := (Nat.pow_lt_pow_iff_right (by decide)).mp (Nat.lt_of_lt_of_le hlow hj)
  exact Nat.pow_le_pow_right (by decide) hkj

/-- The loop counts the bits. -/
theorem shiftCount_spec (fuel n : Nat) (h : n ≤ fuel) (hpos : 0 < n) :
    ∃ k, shiftCount fuel n = k + 1 ∧ 2 ^ k ≤ n ∧ n < 2 ^ (k + 1) := by
  induction fuel generalizing n with
  | zero => omega
  | succ fuel ih =>
      have hshift : n >>> 1 = n / 2 := Nat.shiftRight_eq_div_pow n 1
      unfold shiftCount
      rw [if_pos (by omega), hshift]
      by_cases hone : n / 2 = 0
      · refine ⟨0, ?_, by omega, by omega⟩
        rw [hone]
        cases fuel <;> rfl
      · obtain ⟨k, hk, hlow, hhigh⟩ := ih (n / 2) (by omega) (by omega)
        refine ⟨k + 1, by rw [hk], ?_, ?_⟩
        · rw [Nat.pow_succ]
          omega
        · rw [Nat.pow_succ]
          omega

end Power

/-! ### The number of buckets -/

section Buckets
variable {w nel : Nat}

/-- `max(MIN_BUCKETS, min(nel, MAX_BUCKETS))` -/
def requested (w nel : Nat) : Nat := max minBuckets (min nel (maxBuckets w))

/-- The smallest size is not above the largest. -/
theorem minBuckets_le (hw : 16 ≤ w) : minBuckets ≤ maxBuckets w := by
  show 1 <<< 4 ≤ 1 <<< (w - 1 - 5)
  rw [Nat.one_shiftLeft, Nat.one_shiftLeft]
  exact Nat.pow_le_pow_right (by decide) (by omega)

/-- At least one bucket is asked for. -/
theorem requested_pos : 0 < requested w nel :=
  Nat.lt_of_lt_of_le (by decide) (Nat.le_max_left ..)

/-- The two comparisons of the source give the requested size. -/
theorem bucketCount_eq (hw : 16 ≤ w) :
    bucketCount w nel =
      if (requested w nel).isPowerOfTwo then some (requested w nel)
      else if shiftCount (requested w nel) (requested w nel) < 31 then
        some (2 ^ shiftCount (requested w nel) (requested w nel))
      else none := by
  have hle := minBuckets_le hw
  have hclamp : (if (if nel < minBuckets then minBuckets else nel) > maxBuckets w then maxBuckets w
      else if nel < minBuckets then minBuckets else nel) = requested w nel := by
    unfold requested
    split_ifs <;> omega
  have hpow := @Nat.and_sub_one_eq_zero_iff_isPowerOfTwo (requested w nel) (by
    have := @requested_pos w nel
    omega)
  simp only [bucketCount, hclamp, Nat.one_shiftLeft]
  by_cases h : (requested w nel).isPowerOfTwo
  · rw [if_pos h, if_neg (not_not.mpr (hpow.mpr h))]
  · rw [if_neg h, if_pos (mt hpow.mp h)]

/-- A request for up to 2^30 buckets, or for 2^31, is met with the least power of two. -/
theorem bucketCount_spec (hw : 16 ≤ w)
    (hfits : requested w nel ≤ 2 ^ 30 ∨ requested w nel = 2 ^ 31) :
    ∃ size, bucketCount w nel = some size ∧ size ≤ 2 ^ 31 ∧
      IsLeast { m | m.isPowerOfTwo ∧ requested w nel ≤ m } size := by
  rw [bucketCount_eq hw]
  by_cases h : (requested w nel).isPowerOfTwo
  · rw [if_pos h]
    exact ⟨_, rfl, by omega, isLeast_of_isPowerOfTwo h⟩
  · obtain ⟨k, hk, hlow, hhigh⟩ :=
      shiftCount_spec (requested w nel) (requested w nel) (Nat.le_refl _) requested_pos
    have hne : 2 ^ k ≠ requested w nel := fun heq => h ⟨k, heq.symm⟩
    have hsmall : requested w nel < 2 ^ 30 := by
      rcases hfits with hle | heq
      · exact lt_of_le_of_ne hle fun heq => h ⟨30, heq⟩
      · exact absurd ⟨31, heq⟩ h
    -- The shift stays below the sign bit of the `int`.
    have hbits : k + 1 < 31 := by
      by_contra hbig
      have hpow : 2 ^ 30 ≤ 2 ^ k := Nat.pow_le_pow_right (by decide) (by omega)
      omega
    rw [if_neg h, hk, if_pos hbits]
    refine ⟨_, rfl, Nat.pow_le_pow_right (by decide) (by omega), ?_⟩
    exact isLeast_of_between (lt_of_le_of_ne hlow hne) hhigh.le

/-- Beyond 2^30 the shift leaves the `int`, unless nothing is rounded. -/
theorem bucketCount_of_large (hw : 16 ≤ w) (hlarge : 2 ^ 30 < requested w nel) :
    bucketCount w nel =
      if (requested w nel).isPowerOfTwo then some (requested w nel) else none := by
  rw [bucketCount_eq hw]
  by_cases h : (requested w nel).isPowerOfTwo
  · rw [if_pos h, if_pos h]
  · obtain ⟨k, hk, -, hhigh⟩ :=
      shiftCount_spec (requested w nel) (requested w nel) (Nat.le_refl _) requested_pos
    have hbits : 30 < k + 1 :=
      (Nat.pow_lt_pow_iff_right (by decide)).mp (Nat.lt_trans hlarge hhigh)
    rw [if_neg h, if_neg h, hk, if_neg (by omega)]

end Buckets

/-! ### The divisor -/

section Divisor

/-- `hash` gives a value for every key when the size is not 0 as an `int`. -/
def NeverDividesByZero (size : Nat) : Prop :=
  ∀ (key : Bytes) (keyLen : Nat), keyLen ≤ key.length →
    (HashTable.hash key keyLen (int32 size)).isSome

/-- The hash of a key only reads the key. -/
theorem hashBytes_isSome (n : Nat) (key : Bytes) (accum : Nat) (h : n ≤ key.length) :
    (hashBytes n key accum).isSome := by
  induction n generalizing key accum with
  | zero => rfl
  | succ n ih =>
      cases key with
      | nil => simp at h
      | cons c s => exact ih s _ (by simpa using h)

/-- The divisor is the size as an `int`. -/
theorem neverDividesByZero_iff (size : Nat) : NeverDividesByZero size ↔ int32 size ≠ 0 := by
  constructor
  · intro h hzero
    have hempty := h [] 0 (Nat.le_refl 0)
    rw [hzero] at hempty
    exact absurd hempty (by decide)
  · intro hsize key keyLen hlen
    have hguard : ¬ ((keyLen : Int) < 0 ∨ int32 size = 0) := by omega
    obtain ⟨accum, haccum⟩ := Option.isSome_iff_exists.mp (hashBytes_isSome keyLen key 0 hlen)
    unfold HashTable.hash
    rw [if_neg hguard, Int.toNat_natCast, haccum]
    rfl

/-- The powers of two from 2^32 on are 0 as an `int`. -/
theorem int32_two_pow {k : Nat} (h : 32 ≤ k) : int32 (2 ^ k : Nat) = 0 := by
  obtain ⟨j, rfl⟩ := Nat.exists_eq_add_of_le h
  rw [Nat.pow_add]
  generalize 2 ^ j = q
  unfold int32
  push_cast
  omega

end Divisor

/-! ### A new table -/

section Table
variable {w nel : Nat}

/-- Every call for `nel` buckets is defined, and when it returns 1 the table has the least
power of two of them that is enough, and `hash` never divides by zero for it. -/
def SizesRight (w nel : Nat) : Prop :=
  ∀ (start : HsearchData w) (malloc : Bool), ∃ htab ret,
    newHashTable nel start malloc = some (htab, ret) ∧
    (ret = 1 → IsLeast { m | m.isPowerOfTwo ∧ requested w nel ≤ m } htab.htablesize ∧
      NeverDividesByZero htab.htablesize)

/-- Up to `2 ^ 30`, and for `2 ^ 31`, the table has the right size. -/
theorem sizesRight_of_fits (hw : 16 ≤ w)
    (hfits : requested w nel ≤ 2 ^ 30 ∨ requested w nel = 2 ^ 31) : SizesRight w nel := by
  intro start malloc
  obtain ⟨size, hcount, hsize, hleast⟩ := bucketCount_spec hw hfits
  by_cases hnull : start.htable.isSome = true
  · exact ⟨start, 0, if_pos hnull, fun h => absurd h (by decide)⟩
  · have hpos : 0 < size := Nat.lt_of_lt_of_le requested_pos hleast.1.2
    have hdivisor : int32 size ≠ 0 := by
      unfold int32
      omega
    unfold newHashTable
    rw [if_neg hnull, hcount]
    cases malloc with
    | true => exact ⟨_, 1, rfl, fun _ => ⟨hleast, (neverDividesByZero_iff size).mpr hdivisor⟩⟩
    | false => exact ⟨_, 0, rfl, fun h => absurd h (by decide)⟩

/-- A call without a table that finds the memory. -/
theorem newHashTable_empty (nel : Nat) :
    newHashTable nel (⟨none, 0, fun _ => none⟩ : HsearchData w) true =
      (bucketCount w nel).map fun size =>
        (⟨some (List.replicate size null), size, fun _ => none⟩, 1) := by
  show (bucketCount w nel).bind _ = _
  cases bucketCount w nel <;> rfl

/-- A larger request is undefined, or makes a table that cannot be used. -/
theorem not_sizesRight (hw : 16 ≤ w) (hlarge : 2 ^ 30 < requested w nel)
    (hne : requested w nel ≠ 2 ^ 31) : ¬ SizesRight w nel := by
  intro h
  obtain ⟨htab, ret, hcall, hright⟩ := h ⟨none, 0, fun _ => none⟩ true
  rw [newHashTable_empty, bucketCount_of_large hw hlarge] at hcall
  by_cases hpow : (requested w nel).isPowerOfTwo
  · rw [if_pos hpow] at hcall
    cases hcall
    obtain ⟨k, hk⟩ := hpow
    have hbits : 32 ≤ k := by
      have hlt : 30 < k := (Nat.pow_lt_pow_iff_right (by decide)).mp (hk ▸ hlarge)
      have hne' : k ≠ 31 := fun heq => hne (heq ▸ hk)
      omega
    have hdivisor := (neverDividesByZero_iff _).mp (hright rfl).2
    exact hdivisor (hk ▸ int32_two_pow hbits)
  · rw [if_neg hpow] at hcall
    cases hcall

/-- A new table is right just when at most 2^30 buckets are requested, or 2^31. -/
theorem sizesRight_iff (hw : 16 ≤ w) (nel : Nat) :
    SizesRight w nel ↔ requested w nel ≤ 2 ^ 30 ∨ requested w nel = 2 ^ 31 := by
  constructor
  · intro h
    by_contra hno
    rw [not_or] at hno
    exact not_sizesRight hw (by omega) hno.2 h
  · exact sizesRight_of_fits hw

/-- A table for a hundred entries. -/
theorem sizesRight_hundred : SizesRight 64 100 :=
  (sizesRight_iff (show 16 ≤ 64 by decide) 100).mpr (.inl (by decide))

/-- A request for 2^32 buckets makes a table for which `hash` divides by zero. -/
theorem not_sizesRight_large : ¬ ∀ nel < 2 ^ 64, SizesRight 64 nel := by
  intro h
  exact not_sizesRight (show 16 ≤ 64 by decide) (show 2 ^ 30 < requested 64 4294967296 by decide)
    (by decide) (h 4294967296 (by decide))

end Table

end MyTestFiles.Proofs.HashTable
