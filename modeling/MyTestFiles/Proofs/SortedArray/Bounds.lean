import MyTestFiles.Proofs.SortedArray.Search

/-!
# `MyTestFiles.Proofs.SortedArray.Bounds`: which cells the searches read

A search keeps to the entries in use when it runs without a fault on the array that has no
other cells. The search in one array does unless a sum of two indices overruns
(`getIndex_isSome_iff`). The search for a pair goes on from there and looks at the first
array before it compares the index with the count, so that it also leaves the entries when
the scan passes the last of them: that is when the last pair has the first component and a
smaller second one (`scan2_isSome_iff`). `inBounds_iff` puts the two together.

* "Reads only the first `count` cells" is stated as a run on arrays that have no other cells: a
  search that looked further would fault there. So the statement needs no record of the reads.
* `RunEndsBelow` is a condition on the array and the pair alone. It is tested on the last pair in
  use, because the pairs are sorted.
* `not_inBounds` has the array and the pair for which the second search reads behind the entries.
-/

set_option autoImplicit false

namespace MyTestFiles.Proofs.SortedArray

open MyTestFiles.Lib
open MyTestFiles.SortedArray

section Bounds
variable {bits : Nat}

/-- `sorted_array_get_index` reads only the first `count` cells. -/
def InBounds (array : List (Ulong bits)) (count : Nat) (number : Ulong bits) : Prop :=
  (sortedArrayGetIndex (array.take count) count number).isSome

/-- `sorted_array_get_index_2` reads only the first `count` cells of both arrays. -/
def InBounds2 (array1 array2 : List (Ulong bits)) (count : Nat) (number1 number2 : Ulong bits) :
    Prop :=
  (sortedArrayGetIndex2 (array1.take count) (array2.take count) count number1 number2).isSome

/-- The last pair in use has the first component and a second one below the number. -/
def RunEndsBelow (array1 array2 : List (Ulong bits)) (count : Nat)
    (number1 number2 : Ulong bits) : Prop :=
  ∃ last entry, last + 1 = count ∧ array1[last]? = some number1 ∧
    array2[last]? = some entry ∧ entry < number2

/-! ### One array -/

variable {l : List (Ulong bits)} {x : Ulong bits}

/-- The search in one array keeps to the entries in use unless a sum of indices overruns. -/
theorem getIndex_isSome_iff (hlen : l.length ≤ 2147483647) (hsorted : l.SortedLE) :
    (sortedArrayGetIndex l l.length x).isSome ↔ ¬ SumOverruns l l.length x := by
  constructor
  · intro hrun hover
    rw [getIndex_of_overrun hlen hover] at hrun
    exact absurd hrun (by decide)
  · intro hsum
    obtain ⟨r, hrun, -⟩ := getIndex_spec (List.prefix_refl l) hsorted hsum
    rw [hrun]
    rfl

/-- The overrun is a matter of the entries in use. -/
theorem sumOverruns_take (array : List (Ulong bits)) (count : Nat) :
    SumOverruns (array.take count) count x ↔ SumOverruns array count x := by
  unfold SumOverruns
  refine exists_congr fun r => and_congr_right fun hwindow => ?_
  rw [List.take_take, Nat.min_eq_left (by omega)]

/-! ### Two arrays -/

variable {l1 l2 : List (Ulong bits)} {x1 x2 : Ulong bits}

/-- Two places of arrays that are sorted as pairs. -/
theorem pairs_le (hsorted : ((l1.zip l2).map toLex).SortedLE) {m n : Nat}
    {a1 a2 b1 b2 : Ulong bits} (ha1 : l1[m]? = some a1) (ha2 : l2[m]? = some a2)
    (hb1 : l1[n]? = some b1) (hb2 : l2[n]? = some b2) (hmn : m ≤ n) :
    a1 < b1 ∨ a1 = b1 ∧ a2 ≤ b2 := by
  have ha : ((l1.zip l2).map toLex)[m]? = some (toLex (a1, a2)) := by
    simp [show (l1.zip l2)[m]? = some (a1, a2) from List.getElem?_zip_eq_some.mpr ⟨ha1, ha2⟩]
  have hb : ((l1.zip l2).map toLex)[n]? = some (toLex (b1, b2)) := by
    simp [show (l1.zip l2)[n]? = some (b1, b2) from List.getElem?_zip_eq_some.mpr ⟨hb1, hb2⟩]
  exact Prod.Lex.le_iff.mp (le_of_sortedLE hsorted ha hb hmn)

/-- The first components of sorted pairs are sorted. -/
theorem sortedLE_of_pairs (hlen : l2.length = l1.length)
    (hsorted : ((l1.zip l2).map toLex).SortedLE) : l1.SortedLE := by
  rw [List.sortedLE_iff_pairwise, List.pairwise_iff_getElem]
  intro m n hm hn hmn
  have hle := pairs_le hsorted (List.getElem?_eq_getElem hm)
    (List.getElem?_eq_getElem (by omega)) (List.getElem?_eq_getElem hn)
    (List.getElem?_eq_getElem (by omega)) hmn.le
  rcases hle with hlt | ⟨heq, -⟩
  · exact hlt.le
  · exact heq.le

/-- From the first entry with the first component the scan faults just when every pair up to
the last one is below the pair. -/
theorem scan2_isSome_iff (hlen : l2.length = l1.length)
    (hsorted : ((l1.zip l2).map toLex).SortedLE) {p : Nat} (hp : IsLowerBound l1 x1 p)
    (hfound : l1[p]? = some x1) :
    (loop (getIndex2Pass l1 l2 l1.length x1 x2) (l1.length - p + 1) p).isSome ↔
      ¬ RunEndsBelow l1 l2 l1.length x1 x2 := by
  obtain ⟨hplen, -⟩ := List.getElem?_eq_some_iff.mp hfound
  constructor
  · rintro hrun ⟨last, entry, hlast, hlast1, hlast2, hlt⟩
    -- every pass goes round again, and the one at the end faults
    have hnone : loop (getIndex2Pass l1 l2 l1.length x1 x2) (l1.length - p + 1) p = none := by
      refine loop_eq_none (fun index => p ≤ index ∧ index ≤ l1.length) ?_
        ⟨Nat.le_refl p, by omega⟩ _
      intro index hindex
      rcases Nat.lt_or_eq_of_le hindex.2 with hin | rfl
      · right
        have hget1 := List.getElem?_eq_getElem hin
        have hget2 : l2[index]? = some l2[index] := List.getElem?_eq_getElem (by omega)
        have hge : x1 ≤ l1[index] := hp.above index _ hget1 hindex.1
        have hle := pairs_le hsorted hget1 hget2 hlast1 hlast2 (by omega)
        have heq : l1[index] = x1 := hle.elim (fun h => absurd h (not_lt.mpr hge)) And.left
        have hbelow : l2[index] < x2 :=
          lt_of_le_of_lt (hle.elim (fun h => absurd h (not_lt.mpr hge)) And.right) hlt
        refine ⟨index + 1, ?_, by omega, hin⟩
        simp [getIndex2Pass, hget2, heq, hin, hbelow]
      · left
        simp [getIndex2Pass]
    rw [hnone] at hrun
    exact absurd hrun (by decide)
  · intro hends
    let inv : Nat → Nat → Prop := fun left index =>
      left = l1.length - index ∧ p ≤ index ∧ index ≤ l1.length ∧
        ∀ m, p ≤ m → m < index → ∃ entry, l1[m]? = some x1 ∧ l2[m]? = some entry ∧ entry < x2
    have hpass : ∀ left index, inv left index →
        PassOk (getIndex2Pass l1 l2 l1.length x1 x2) inv (fun _ => True) left index := by
      rintro left index ⟨rfl, hpi, hle, hrun⟩
      have hin : index < l1.length := by
        by_contra hout
        obtain ⟨entry, hentry1, hentry2, hlt⟩ := hrun (l1.length - 1) (by omega) (by omega)
        exact hends ⟨l1.length - 1, entry, by omega, hentry1, hentry2, hlt⟩
      have hget1 := List.getElem?_eq_getElem hin
      have hget2 : l2[index]? = some l2[index] := List.getElem?_eq_getElem (by omega)
      by_cases heq : l1[index] = x1
      · rcases lt_trichotomy l2[index] x2 with hlt | heq2 | hgt
        · refine .inl ⟨index + 1, _, ?_, ⟨rfl, by omega, hin, fun m hpm hm => ?_⟩, by omega⟩
          · simp [getIndex2Pass, hget2, heq, hin, hlt]
          · rcases Nat.lt_succ_iff_lt_or_eq.mp hm with hm | rfl
            · exact hrun m hpm hm
            · exact ⟨_, heq ▸ hget1, hget2, hlt⟩
        · exact .inr ⟨(true, index), by simp [getIndex2Pass, hget2, heq, hin, heq2], trivial⟩
        · refine .inr ⟨(false, index), ?_, trivial⟩
          simp [getIndex2Pass, hget2, heq, hin, hgt, not_lt.mpr hgt.le]
      · exact .inr ⟨(false, index), by simp [getIndex2Pass, hget1, heq], trivial⟩
    have hstart : inv (l1.length - p) p :=
      ⟨rfl, Nat.le_refl p, by omega, fun m hpm hm => absurd hm (by omega)⟩
    obtain ⟨r, hrun, -⟩ := loop_rule inv hpass hstart (Nat.lt_succ_self _)
    rw [hrun]
    rfl

/-- The search for a pair does so unless the scan passes the last entry, too. -/
theorem getIndex2_isSome_iff (x1 x2 : Ulong bits) (hlen : l2.length = l1.length)
    (hsmall : l1.length ≤ 2147483647) (hsorted : ((l1.zip l2).map toLex).SortedLE) :
    (sortedArrayGetIndex2 l1 l2 l1.length x1 x2).isSome ↔
      ¬ SumOverruns l1 l1.length x1 ∧ ¬ RunEndsBelow l1 l2 l1.length x1 x2 := by
  have hsorted1 := sortedLE_of_pairs hlen hsorted
  by_cases hsum : SumOverruns l1 l1.length x1
  · simp [sortedArrayGetIndex2, getIndex_of_overrun hsmall hsum, hsum]
  · obtain ⟨⟨found, p⟩, hrun, hp, hfound⟩ := getIndex_spec (List.prefix_refl l1) hsorted1 hsum
    cases found with
    | true =>
        have hscan : _ ↔ ¬ RunEndsBelow l1 l2 l1.length x1 x2 :=
          scan2_isSome_iff hlen hsorted hp (hfound.mp rfl)
        simp only [sortedArrayGetIndex2, hrun, Option.bind_eq_bind, Option.bind_some]
        simpa [hsum] using hscan
    | false =>
        -- the first component is missing, and so is a run of it at the end
        have hends : ¬ RunEndsBelow l1 l2 l1.length x1 x2 := by
          rintro ⟨last, -, -, hlast, -⟩
          have hmem : x1 ∈ l1 := List.mem_of_getElem? hlast
          exact Bool.false_ne_true (hfound.mpr ((hp.getElem?_eq_iff hsorted1).mpr hmem))
        simp [sortedArrayGetIndex2, hrun, hsum, hends]

/-- The condition only looks at the entries in use. -/
theorem runEndsBelow_take (array1 array2 : List (Ulong bits)) (count : Nat) :
    RunEndsBelow (array1.take count) (array2.take count) count x1 x2 ↔
      RunEndsBelow array1 array2 count x1 x2 := by
  unfold RunEndsBelow
  refine exists_congr fun last => exists_congr fun entry => and_congr_right fun hlast => ?_
  rw [List.getElem?_take_of_lt (by omega), List.getElem?_take_of_lt (by omega)]

/-! ### Both searches -/

/-- The search in one array reads only the entries in use unless a sum of two indices
overruns, and the search for a pair unless that, or the scan passes the last pair. -/
theorem inBounds_iff (array array1 array2 : List (Ulong bits)) (count : Nat)
    (number number1 number2 : Ulong bits) (hcount : count ≤ 2147483647)
    (hcells : count ≤ array.length) (hcells1 : count ≤ array1.length)
    (hcells2 : count ≤ array2.length) (hsorted : (array.take count).SortedLE)
    (hsorted2 : (((array1.zip array2).take count).map toLex).SortedLE) :
    (InBounds array count number ↔ ¬ SumOverruns array count number) ∧
    (InBounds2 array1 array2 count number1 number2 ↔
      ¬ SumOverruns array1 count number1 ∧ ¬ RunEndsBelow array1 array2 count number1 number2) := by
  have hlen : (array.take count).length = count := List.length_take_of_le hcells
  have hlen1 : (array1.take count).length = count := List.length_take_of_le hcells1
  have hlen2 : (array2.take count).length = count := List.length_take_of_le hcells2
  constructor
  · have h := getIndex_isSome_iff (x := number) (by omega) hsorted
    rw [hlen] at h
    exact h.trans (not_congr (sumOverruns_take array count))
  · rw [List.zip, List.take_zipWith] at hsorted2
    have h := getIndex2_isSome_iff number1 number2 (hlen2.trans hlen1.symm) (by omega) hsorted2
    rw [hlen1] at h
    exact h.trans (and_congr (not_congr (sumOverruns_take array1 count))
      (not_congr (runEndsBelow_take array1 array2 count)))

/-- One entry, and a pair behind it with the same first component. -/
theorem inBounds_one :
    (InBounds ([5] : List (Ulong 32)) 1 5 ↔ ¬ SumOverruns ([5] : List (Ulong 32)) 1 5) ∧
    (InBounds2 ([5] : List (Ulong 32)) [1] 1 5 2 ↔
      ¬ SumOverruns ([5] : List (Ulong 32)) 1 5 ∧
        ¬ RunEndsBelow ([5] : List (Ulong 32)) [1] 1 5 2) :=
  inBounds_iff ([5] : List (Ulong 32)) [5] [1] 1 5 5 2 (by decide) (by decide) (by decide)
    (by decide) (by decide) (by decide)

/-- The two searches do not keep to the entries in use of every array that is sorted. -/
theorem not_inBounds :
    ¬ ∀ (array array1 array2 : List (Ulong 32)) (count : Nat) (number number1 number2 : Ulong 32),
      count ≤ array.length → count ≤ array1.length → count ≤ array2.length →
        (array.take count).SortedLE → (((array1.zip array2).take count).map toLex).SortedLT →
          InBounds array count number ∧ InBounds2 array1 array2 count number1 number2 := by
  intro h
  -- the scan for (5, 2) passes the only entry (5, 1)
  have hone := (h [5] [5] [1] 1 5 5 2 (by decide) (by decide) (by decide) (by decide)
    (by decide)).2
  unfold InBounds2 at hone
  exact absurd hone (by decide)

end Bounds

end MyTestFiles.Proofs.SortedArray
