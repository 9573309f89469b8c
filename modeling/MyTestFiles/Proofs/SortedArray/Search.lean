import MyTestFiles.Lib.Insertion
import MyTestFiles.SortedArray.SortedArray

/-!
# `MyTestFiles.Proofs.SortedArray.Search`: what the search in one array finds

The entries in use are a list `l` with `l <+: array` and `count = l.length`. One pass of the
search halves a `Bracket` of `l` or ends at the lower bound of the number
(`getIndexPass_spec`), as long as the sum of the two ends is an `int`. The sum can only
overrun while the search moves up from the start, so the windows of such a search
(`upperStart`) say when it does (`SumOverruns`). `getIndex_spec` is the search without an
overrun, `getIndex_of_overrun` the one with it, and `getIndex_lowerBound` the result for
every count up to 2^30.

* The bracket is an interval of indices, and the entries before and behind it are known to be
  below and above the number. A probe in its middle gives a bracket that is smaller, or an entry
  with the number.
* From an entry with the number the search walks back to the first one, so that with duplicates
  the answer is the first occurrence.
* An interval of a few entries is scanned, and a scan that passes all of them ends at the place
  where the number belongs.
-/

set_option autoImplicit false

namespace MyTestFiles.Proofs.SortedArray

open MyTestFiles.Lib
open MyTestFiles.SortedArray

section Search
variable {bits : Nat} {array l : List (Ulong bits)} {x : Ulong bits}

/-- The entries in use are those of the list. -/
theorem getElem?_used {m : Nat} (hl : l <+: array) (hm : m < l.length) : array[m]? = l[m]? := by
  rw [List.prefix_iff_getElem?.mp hl m hm, List.getElem?_eq_getElem hm]

/-! ### The linear parts -/

/-- The scan over the last few entries ends at the lower bound. -/
theorem scanUp_spec (hl : l <+: array) (left i : Nat) (hlen : i + left ≤ l.length)
    (hbelow : ∀ m y, l[m]? = some y → m < i → y < x)
    (habove : ∀ m y, l[m]? = some y → i + left ≤ m → x < y) (hsorted : l.SortedLE) :
    ∃ found p, scanUp array x left i = some (found, p) ∧ IsLowerBound l x p ∧
      (found = true ↔ l[p]? = some x) := by
  induction left generalizing i with
  | zero =>
      refine ⟨false, i, rfl, ⟨hlen, hbelow, fun m y hy hm => (habove m y hy hm).le⟩, ?_⟩
      simp only [Bool.false_eq_true, false_iff]
      intro hx
      exact lt_irrefl x (habove i x hx (Nat.le_refl _))
  | succ left ih =>
      have hi : i < l.length := by omega
      have hget := List.getElem?_eq_getElem hi
      have hread : array[i]? = some l[i] := (getElem?_used hl hi).trans hget
      -- an element below, the element itself, or the first one above
      rcases lt_trichotomy l[i] x with hlt | heq | hgt
      · have hrun : scanUp array x (left + 1) i = scanUp array x left (i + 1) := by
          simp [scanUp, hread, hlt]
        rw [hrun]
        refine ih (i + 1) (by omega) ?_ fun m y hy hm => habove m y hy (by omega)
        intro m y hy hm
        exact lt_of_le_of_lt (le_of_sortedLE hsorted hy hget (by omega)) hlt
      · refine ⟨true, i, by simp [scanUp, hread, heq], ⟨by omega, hbelow, ?_⟩, ?_⟩
        · intro m y hy hm
          exact heq ▸ le_of_sortedLE hsorted hget hy hm
        · simp [hget, heq]
      · refine ⟨false, i, by simp [scanUp, hread, hgt, not_lt.mpr hgt.le],
          ⟨by omega, hbelow, ?_⟩, ?_⟩
        · intro m y hy hm
          exact hgt.le.trans (le_of_sortedLE hsorted hget hy hm)
        · simp [hget, hgt.ne']

/-- From any entry with the number the walk back ends at the first of them. -/
theorem walkBack_spec (hl : l <+: array) (hsorted : l.SortedLE) (k : Nat)
    (hk : l[k]? = some x) :
    ∃ p, walkBack array x k = some p ∧ IsLowerBound l x p ∧ l[p]? = some x := by
  induction k with
  | zero =>
      refine ⟨0, rfl, ⟨Nat.zero_le _, fun m y _ hm => absurd hm (Nat.not_lt_zero m), ?_⟩, hk⟩
      intro m y hy _
      exact le_of_sortedLE hsorted hk hy (Nat.zero_le m)
  | succ k ih =>
      obtain ⟨hlen, -⟩ := List.getElem?_eq_some_iff.mp hk
      have hget : l[k]? = some l[k] := List.getElem?_eq_getElem (by omega)
      have hread : array[k]? = some l[k] := (getElem?_used hl (by omega)).trans hget
      have hle : l[k] ≤ x := le_of_sortedLE hsorted hget hk (Nat.le_succ k)
      -- The entry before is equal, and the walk goes on, or it is smaller, and all before it are.
      by_cases heq : l[k] = x
      · obtain ⟨p, hrun, hp⟩ := ih (heq ▸ hget)
        refine ⟨p, ?_, hp⟩
        simp [walkBack, hread, heq, hrun]
      · refine ⟨k + 1, by simp [walkBack, hread, heq], ⟨by omega, ?_, ?_⟩, hk⟩
        · intro m y hy hm
          have hym : y ≤ l[k] := le_of_sortedLE hsorted hy hget (by omega)
          exact lt_of_le_of_lt hym (lt_of_le_of_ne hle heq)
        · intro m y hy hm
          exact le_of_sortedLE hsorted hk hy hm

/-! ### The bisection -/

/-- One pass with a sum in range: a smaller bracket, or the lower bound. -/
theorem getIndexPass_spec (hl : l <+: array) (hsorted : l.SortedLE) {i : Nat} {j : Int}
    (hbracket : Bracket l x i j) (hint : 4 ≤ j - i → i + j < 2147483648) :
    (∃ i' j', getIndexPass array x (i, j) = some (.again (i', j')) ∧ Bracket l x i' j' ∧
      (j' + 1 - i').toNat < (j + 1 - i).toNat ∧
      ((i' : Int) = (i + j) / 2 + 1 ∧ j' = j ∨ i' = i ∧ j' = (i + j) / 2 - 1)) ∨
    ∃ r, getIndexPass array x (i, j) = some (.done r) ∧ IsLowerBound l x r.2 ∧
      (r.1 = true ↔ l[r.2]? = some x) := by
  have hstart := hbracket.start_le
  have hend := hbracket.end_lt
  by_cases hshort : j - i < minBinarySearch
  · -- at most four entries are left: look at each
    obtain ⟨found, p, hscan, hp⟩ := scanUp_spec hl (j + 1 - i).toNat i (by omega) hbracket.below
      (fun m y hy hm => hbracket.above m y hy (by omega)) hsorted
    exact .inr ⟨(found, p), by rw [getIndexPass, if_pos hshort, hscan]; rfl, hp⟩
  · have hlong : ¬ j - i < 4 := hshort
    have hsum : int32 (i + j) = i + j := int32_of_range (by omega) (hint (by omega))
    obtain ⟨k, hk⟩ : ∃ k : Nat, ((i : Int) + j) / 2 = k := ⟨((i + j) / 2).toNat, by omega⟩
    have hbounds : i ≤ k ∧ (k : Int) ≤ j := by omega
    have hklen : k < l.length := by omega
    have hget : l[k]? = some l[k] := List.getElem?_eq_getElem hklen
    have hread : array[k]? = some l[k] := (getElem?_used hl hklen).trans hget
    have hnonneg : ¬ (k : Int) < 0 := by omega
    -- The middle entry is in the list in use, and decides which side is left.
    rcases lt_trichotomy l[k] x with hlt | heq | hgt
    · refine .inl ⟨k + 1, j, ?_, hbracket.raise hsorted hget hlt hbounds.2, by omega,
        .inl ⟨by omega, rfl⟩⟩
      simp [getIndexPass, hshort, hsum, hk, hread, hlt]
    · obtain ⟨p, hwalk, hp, hx⟩ := walkBack_spec hl hsorted k (heq ▸ hget)
      refine .inr ⟨(true, p), ?_, hp, by simp [hx]⟩
      simp [getIndexPass, hshort, hsum, hk, hread, heq, hwalk]
    · refine .inl ⟨i, (k : Int) - 1, ?_, hbracket.lower hsorted hget hgt hbounds.1, by omega,
        .inr ⟨rfl, by omega⟩⟩
      simp [getIndexPass, hshort, hsum, hk, hread, hgt, not_lt.mpr hgt.le]

/-! ### Sums out of range -/

/-- The start of the window after `r` probes of a search that has only moved up. -/
def upperStart (count : Nat) : Nat → Nat
  | 0 => 0
  | r + 1 => (upperStart count r + (count - 1)) / 2 + 1

/-- The search moves up to a window for another probe with ends whose sum is not an `int`. -/
def SumOverruns (array : List (Ulong bits)) (count : Nat) (number : Ulong bits) : Prop :=
  ∃ r, upperStart count r + 4 ≤ count - 1 ∧ 2147483648 ≤ upperStart count r + (count - 1) ∧
    ∀ entry ∈ array.take (upperStart count r), entry < number

/-- Up to 2^30 entries every sum is an `int`. -/
theorem not_sumOverruns {count : Nat} (hint : count ≤ 2 ^ 30) :
    ¬ SumOverruns array count x := by
  rintro ⟨r, hwindow, hsum, -⟩
  omega

/-- The windows of a search that moves up start further up each time. -/
theorem upperStart_mono {count r r' : Nat} (hr : r ≤ r') (hstart : upperStart count r' ≤ count) :
    upperStart count r ≤ upperStart count r' := by
  induction r' with
  | zero =>
      rw [Nat.le_zero.mp hr]
  | succ r' ih =>
      rcases Nat.le_succ_iff_eq_or_le.mp hr with rfl | hle
      · exact Nat.le_refl _
      · rw [upperStart] at hstart ⊢
        have := ih hle (by omega)
        omega

/-- The hybrid search finds the first entry that is not below the number. -/
theorem getIndex_spec (hl : l <+: array) (hsorted : l.SortedLE)
    (hsum : ¬ SumOverruns l l.length x) :
    ∃ r, sortedArrayGetIndex array l.length x = some r ∧ IsLowerBound l x r.2 ∧
      (r.1 = true ↔ l[r.2]? = some x) := by
  -- the end has come down below 2^30, or the search has only moved up
  let inv : Nat → Nat × Int → Prop := fun left s =>
    left = (s.2 + 1 - s.1).toNat ∧ Bracket l x s.1 s.2 ∧
      (s.2 < 1073741824 ∨ s.2 = (l.length : Int) - 1 ∧ ∃ r, s.1 = upperStart l.length r)
  refine loop_rule inv ?_ (s := (0, (l.length : Int) - 1))
    ⟨rfl, Bracket.whole, .inr ⟨rfl, 0, rfl⟩⟩ (by simp)
  rintro left ⟨i, j⟩ ⟨rfl, hbracket, hupper⟩
  have hint : 4 ≤ j - i → i + j < 2147483648 := by
    intro hlong
    rcases hupper with hlow | ⟨hj, r, hi⟩
    · simp only at hlow
      omega
    · simp only at hj hi
      by_contra hover
      refine hsum ⟨r, by omega, by omega, fun entry hentry => ?_⟩
      obtain ⟨m, hm, rfl⟩ := List.mem_take_iff_getElem.mp hentry
      exact hbracket.below m _ (List.getElem?_eq_getElem (by omega)) (by omega)
  rcases getIndexPass_spec hl hsorted hbracket hint with
    ⟨i', j', hpass, hbracket', hlt, hside⟩ | ⟨r, hpass, hr⟩
  · refine .inl ⟨(i', j'), _, hpass, ⟨rfl, hbracket', ?_⟩, hlt⟩
    have hstart := hbracket'.start_le
    simp only at hupper ⊢
    rcases hside with ⟨hi', hj'⟩ | ⟨hi', hj'⟩
    · rcases hupper with hlow | ⟨hj, r, hi⟩
      · exact .inl (by omega)
      · refine .inr ⟨by omega, r + 1, ?_⟩
        rw [upperStart]
        omega
    · by_cases hlong : 4 ≤ j - i
      · have := hint hlong
        exact .inl (by omega)
      · -- a pass over a short window does not go round again
        rw [getIndexPass, if_pos (by show j - i < 4; omega)] at hpass
        obtain ⟨found, -, hdone⟩ := Option.bind_eq_some_iff.mp hpass
        cases hdone
  · exact .inr ⟨r, hpass, hr⟩

/-- With a sum that overruns the next probe has a negative index. -/
theorem getIndex_of_overrun (hlen : l.length ≤ 2147483647) (hsum : SumOverruns l l.length x) :
    sortedArrayGetIndex l l.length x = none := by
  obtain ⟨r, hwindow, hover, hbelow⟩ := hsum
  -- the search has moved up `r' ≤ r` times
  refine loop_eq_none (fun s => s.2 = (l.length : Int) - 1 ∧
    ∃ r' ≤ r, s.1 = upperStart l.length r') ?_ ⟨rfl, 0, Nat.zero_le r, rfl⟩ _
  rintro ⟨i, j⟩ ⟨rfl, r', hr', rfl⟩
  have hmono := upperStart_mono hr' (show upperStart l.length r ≤ l.length by omega)
  have hlong : ¬ (l.length : Int) - 1 - upperStart l.length r' < minBinarySearch := by
    show ¬ (l.length : Int) - 1 - upperStart l.length r' < 4
    omega
  rw [getIndexPass, if_neg hlong]
  by_cases hend : 2147483648 ≤ upperStart l.length r' + (l.length - 1)
  · have hnegative : int32 (upperStart l.length r' + ((l.length : Int) - 1)) / 2 < 0 := by
      unfold int32
      omega
    exact .inl (if_pos hnegative)
  · have hne : r' ≠ r := by
      rintro rfl
      exact hend hover
    have hnext := upperStart_mono (show r' + 1 ≤ r by omega)
      (show upperStart l.length r ≤ l.length by omega)
    rw [upperStart] at hnext
    obtain ⟨k, hk⟩ : ∃ k, k = (upperStart l.length r' + (l.length - 1)) / 2 := ⟨_, rfl⟩
    have hprobe : int32 (upperStart l.length r' + ((l.length : Int) - 1)) / 2 = k := by
      rw [int32_of_range (by omega) (by omega)]
      omega
    have hget : l[k]? = some l[k] := List.getElem?_eq_getElem (by omega)
    have hlt : l[k] < x :=
      hbelow _ (List.mem_take_iff_getElem.mpr ⟨k, by omega, rfl⟩)
    refine .inr ⟨(k + 1, (l.length : Int) - 1), ?_, rfl, r' + 1, by omega, by rw [upperStart, hk]⟩
    have hnonneg : ¬ (k : Int) < 0 := by omega
    simp [hprobe, hget, hlt]

/-! ### The lower bound -/

/-- The search tells whether the number occurs among the entries in use, and gives the index
of its first occurrence or the one where it belongs. -/
theorem getIndex_lowerBound (array : List (Ulong bits)) (count : Nat) (number : Ulong bits)
    (hcells : count ≤ array.length) (hcount : count ≤ 2 ^ 30)
    (hsorted : (array.take count).SortedLE) :
    sortedArrayGetIndex array count number =
      some (decide (number ∈ array.take count),
        (array.take count).findIdx fun entry => number ≤ entry) := by
  have hlen : (array.take count).length = count := List.length_take_of_le hcells
  obtain ⟨⟨found, p⟩, hrun, hp, hfound⟩ := getIndex_spec (x := number)
    (List.take_prefix count array) hsorted (not_sumOverruns (by omega))
  rw [hlen] at hrun
  have hmem : found = true ↔ number ∈ array.take count :=
    hfound.trans (hp.getElem?_eq_iff hsorted)
  rw [hrun, ← hp.eq_findIdx]
  cases found with
  | true => rw [decide_eq_true (hmem.mp rfl)]
  | false => rw [decide_eq_false fun hx => absurd (hmem.mpr hx) (by decide)]

/-- A run of duplicates that the bisection meets in its middle, in an array with more cells
than entries. -/
theorem getIndex_lowerBound_duplicates :
    sortedArrayGetIndex ([1, 4, 4, 4, 4, 4, 9, 0] : List (Ulong 32)) 7 4 = some (true, 1) :=
  getIndex_lowerBound ([1, 4, 4, 4, 4, 4, 9, 0] : List (Ulong 32)) 7 4 (by decide) (by decide)
    (by decide)

end Search

end MyTestFiles.Proofs.SortedArray
