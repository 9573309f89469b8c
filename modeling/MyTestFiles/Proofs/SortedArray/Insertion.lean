import MyTestFiles.Proofs.SortedArray.Search

/-!
# `MyTestFiles.Proofs.SortedArray.Insertion`: what the sorted arrays hold

The entries in use are a list `l` with `l <+: array` and `count = l.length`. Each search
has a specification by an insertion point of `l` (`addPass_spec`, `getIndex2_spec`), the shift
makes room there (`shiftUp_spec`), and one call inserts the number into `l`
(`sortedArrayAdd_spec`, `sortedArrayAdd2_spec`). `sorted` is the result for histories of both
kinds.

* An insertion point of `l` for `x` is a place at which `x` can be inserted so that the list stays
  sorted. The first kind finds it by a linear search, the second by the search of `Search` and a
  scan of the entries with an equal first component.
* The second kind has two arrays with one entry in each for a pair. The pairs are in lexicographic
  order, and `firsts` and `seconds` are the two halves of `l`.
* An entry that is in the list already is not inserted again, and then neither room nor a larger
  count is needed.

The room that a history needs is a matter of the distinct numbers in it. The array of the first
kind also has to stay below the limit of its counter, which the room in the statement says.
-/

set_option autoImplicit false

namespace MyTestFiles.Proofs.SortedArray

open MyTestFiles.Lib
open MyTestFiles.SortedArray

section Cells
variable {bits : Nat} {array l : List (Ulong bits)} {x : Ulong bits} {index : Nat}

/-- A store inside the array. -/
theorem store_of_lt (h : index < array.length) :
    store array index x = some (array.set index x) := by
  simp [store, h]

/-! ### The shift -/

/-- The shift moves the entries from `index` up to `j` one place up. -/
theorem shiftUp_spec (index j : Nat) (array : List (Ulong bits)) (hj : j < array.length) :
    ∃ array', shiftUp array index j = some array' ∧ array'.length = array.length ∧
      ∀ m, array'[m]? = if index < m ∧ m ≤ j then array[m - 1]? else array[m]? := by
  induction j generalizing array with
  | zero =>
      refine ⟨array, rfl, rfl, fun m => ?_⟩
      rw [if_neg (by omega)]
  | succ j ih =>
      by_cases hindex : j + 1 > index
      · obtain ⟨array', hrun, hlen, hcells⟩ := ih (array.set (j + 1) array[j]) (by simp; omega)
        refine ⟨array', ?_, by simpa using hlen, fun m => ?_⟩
        · simpa [shiftUp, hindex, store_of_lt hj, List.getElem?_eq_getElem (show j < array.length
            by omega)] using hrun
        · rw [hcells m]
          -- the entry just moved, or one that the rest of the shift moves, or neither
          by_cases hm : m = j + 1
          · subst hm
            rw [if_neg (by omega), if_pos (by omega), List.getElem?_set_self hj]
            exact (List.getElem?_eq_getElem (by omega)).symm
          · by_cases hmoved : index < m ∧ m ≤ j
            · rw [if_pos hmoved, if_pos (by omega), List.getElem?_set_ne (by omega)]
            · rw [if_neg hmoved, if_neg (by omega), List.getElem?_set_ne (by omega)]
      · refine ⟨array, by simp [shiftUp, hindex], rfl, fun m => ?_⟩
        rw [if_neg (by omega)]

/-- A number stored at `index` after the shift is inserted there. -/
theorem insertIdx_prefix {array' : List (Ulong bits)} (hl : l <+: array)
    (hindex : index ≤ l.length) (hroom : l.length < array.length)
    (hlen : array'.length = array.length)
    (hcells : ∀ m, array'[m]? =
      if index < m ∧ m ≤ l.length then array[m - 1]? else array[m]?) :
    l.insertIdx index x <+: array'.set index x := by
  rw [List.prefix_iff_getElem?]
  intro m hm
  rw [List.length_insertIdx_of_le_length hindex] at hm
  rw [← List.getElem?_eq_getElem, List.getElem?_insertIdx]
  rcases Nat.lt_trichotomy m index with hlt | rfl | hgt
  · rw [List.getElem?_set_ne (by omega), hcells m, if_neg (by omega), if_pos hlt]
    exact getElem?_used hl (by omega)
  · rw [List.getElem?_set_self (by omega), if_neg (by omega), if_pos rfl, if_pos hindex]
  · rw [List.getElem?_set_ne (by omega), hcells m, if_pos (by omega), if_neg (by omega),
      if_neg (by omega)]
    exact getElem?_used hl (by omega)

/-! ### One array -/

/-- The linear search returns at an equal entry and leaves at the gap of a new number. -/
theorem addPass_spec (hl : l <+: array) (hsorted : l.SortedLT)
    (hroom : x ∈ l ∨ l.length < array.length) :
    ∃ r, loop (addPass array l.length x) (l.length + 1) 0 = some r ∧
      ((r = none ∧ x ∈ l) ∨
        ∃ array' index, r = some (array', index) ∧ IsGap l x index ∧
          shiftUp array index l.length = some array') := by
  let inv : Nat → Nat → Prop := fun left index =>
    left = l.length - index ∧ index ≤ l.length ∧ ∀ m y, l[m]? = some y → m < index → y < x
  refine loop_rule inv ?_ ⟨rfl, Nat.zero_le _, fun m y _ hm => absurd hm (Nat.not_lt_zero m)⟩
    (Nat.lt_succ_self _)
  rintro left index ⟨rfl, hle, hbelow⟩
  by_cases hindex : index < l.length
  · have hread : array[index]? = some l[index] := List.prefix_iff_getElem?.mp hl index hindex
    rcases lt_trichotomy l[index] x with hlt | heq | hgt
    · refine .inl ⟨index + 1, _, by simp [addPass, hindex, hread, hlt], ⟨rfl, hindex, ?_⟩, by omega⟩
      intro m y hy hm
      rcases Nat.lt_succ_iff_lt_or_eq.mp hm with hm | rfl
      · exact hbelow m y hy hm
      · rw [List.getElem?_eq_getElem hindex] at hy
        cases hy
        exact hlt
    · refine .inr ⟨none, by simp [addPass, hindex, hread, heq], .inl ⟨rfl, ?_⟩⟩
      exact heq ▸ List.getElem_mem hindex
    · have hgap : IsGap l x index :=
        isGap_of_lt hsorted.sortedLE (List.getElem?_eq_getElem hindex) hgt hbelow
      have hspace : l.length < array.length := hroom.resolve_left hgap.not_mem
      obtain ⟨array', hshift, -⟩ := shiftUp_spec index l.length array hspace
      refine .inr ⟨some (array', index), ?_, .inr ⟨array', index, rfl, hgap, hshift⟩⟩
      simp [addPass, hindex, hread, hgt.ne', not_lt.mpr hgt.le, hshift]
  · have hend : index = l.length := by omega
    subst hend
    have hgap : IsGap l x l.length := isGap_length hbelow
    refine .inr ⟨some (array, l.length), by simp [addPass], .inr ⟨array, _, rfl, hgap, ?_⟩⟩
    -- at the end nothing is shifted
    cases hlen : l.length with
    | zero => rfl
    | succ n => simp [shiftUp]

/-- A call inserts the number at its place, or leaves the array as it is where the number is
there. -/
theorem sortedArrayAdd_spec (hl : l <+: array) (hsorted : l.SortedLT)
    (hroom : x ∈ l ∨ l.length < array.length) (hcount : x ∈ l ∨ l.length < 65535) :
    ∃ array' l', sortedArrayAdd array l.length x = some (array', l'.length) ∧
      array'.length = array.length ∧ l' <+: array' ∧ l'.SortedLT ∧
      ∀ y, y ∈ l' ↔ y = x ∨ y ∈ l := by
  obtain ⟨r, hloop, ⟨rfl, hx⟩ | ⟨array', index, rfl, hgap, hshift⟩⟩ :=
    addPass_spec hl hsorted hroom
  · refine ⟨array, l, by simp [sortedArrayAdd, hloop], rfl, hl, hsorted, fun y => ?_⟩
    constructor
    · intro hy
      exact .inr hy
    · rintro (rfl | hy)
      · exact hx
      · exact hy
  -- The number is new, so there is room for it by assumption.
  · have hspace := hroom.resolve_left hgap.not_mem
    have hfits := hcount.resolve_left hgap.not_mem
    obtain ⟨_, hrun, hlen, hcells⟩ := shiftUp_spec index l.length array hspace
    rw [hshift] at hrun
    cases hrun
    have hindex := hgap.le_length
    refine ⟨array'.set index x, l.insertIdx index x, ?_, by simpa using hlen,
      insertIdx_prefix hl hindex hspace hlen hcells, hgap.sortedLT_insertIdx hsorted,
      fun y => List.mem_insertIdx hindex⟩
    rw [List.length_insertIdx_of_le_length hindex]
    simp [sortedArrayAdd, hloop, store_of_lt (show index < array'.length by omega),
      Nat.mod_eq_of_lt (show l.length + 1 < 65536 by omega)]

end Cells

/-! ### Two arrays -/

section Arrays2
variable {bits : Nat} {array1 array2 : List (Ulong bits)} {l : List (Ulong bits ×ₗ Ulong bits)}
  {x : Ulong bits ×ₗ Ulong bits}

/-- The first components of a list of pairs. -/
def firsts (l : List (Ulong bits ×ₗ Ulong bits)) : List (Ulong bits) :=
  l.map fun p => (ofLex p).1

/-- The second components of a list of pairs. -/
def seconds (l : List (Ulong bits ×ₗ Ulong bits)) : List (Ulong bits) :=
  l.map fun p => (ofLex p).2

/-- There are as many first halves as pairs. -/
@[simp] theorem length_firsts (l : List (Ulong bits ×ₗ Ulong bits)) :
    (firsts l).length = l.length := by
  simp [firsts]

/-- There are as many second halves as pairs. -/
@[simp] theorem length_seconds (l : List (Ulong bits ×ₗ Ulong bits)) :
    (seconds l).length = l.length := by
  simp [seconds]

/-- The first halves are in order, with repetitions. -/
theorem sortedLE_firsts (hsorted : l.SortedLT) : (firsts l).SortedLE := by
  rw [List.sortedLE_iff_pairwise, firsts, List.pairwise_map]
  refine hsorted.pairwise.imp fun {a b} hab => ?_
  rcases Prod.Lex.lt_iff.mp hab with hlt | ⟨heq, -⟩
  · exact hlt.le
  · exact heq.le

/-- The first array holds the first halves. -/
theorem getElem?_array1 (hl : firsts l <+: array1) {m : Nat} (hm : m < l.length) :
    array1[m]? = some (ofLex l[m]).1 := by
  rw [getElem?_used hl (by simpa using hm)]
  simp [firsts, List.getElem?_eq_getElem hm]

/-- The second array holds the second halves. -/
theorem getElem?_array2 (hl : seconds l <+: array2) {m : Nat} (hm : m < l.length) :
    array2[m]? = some (ofLex l[m]).2 := by
  rw [getElem?_used hl (by simpa using hm)]
  simp [seconds, List.getElem?_eq_getElem hm]

/-- The scan of the entries with an equal first component finds the pair or its gap. -/
theorem scan2_spec (hl1 : firsts l <+: array1) (hl2 : seconds l <+: array2)
    (hsorted : l.SortedLT) (hroom : x ∈ l ∨ l.length < array1.length) {p : Nat}
    (hp : IsLowerBound (firsts l) (ofLex x).1 p) :
    ∃ r, loop (getIndex2Pass array1 array2 l.length (ofLex x).1 (ofLex x).2) (l.length - p + 1) p =
        some r ∧ ((r.1 = true ∧ x ∈ l) ∨ (r.1 = false ∧ IsGap l x r.2)) := by
  let inv : Nat → Nat → Prop := fun left index =>
    left = l.length - index ∧ p ≤ index ∧ index ≤ l.length ∧
      ∀ m y, l[m]? = some y → m < index → y < x
  have hstart : inv (l.length - p) p := by
    refine ⟨rfl, Nat.le_refl p, by simpa using hp.le_length, fun m y hy hm => ?_⟩
    have hfirst : (firsts l)[m]? = some (ofLex y).1 := by simp [firsts, hy]
    exact Prod.Lex.lt_iff.mpr (.inl (hp.below m _ hfirst hm))
  refine loop_rule inv ?_ hstart (Nat.lt_succ_self _)
  rintro left index ⟨rfl, hpi, hle, hbelow⟩
  by_cases hindex : index < l.length
  · have hget := List.getElem?_eq_getElem hindex
    have hread1 := getElem?_array1 hl1 hindex
    have hread2 := getElem?_array2 hl2 hindex
    have hfirst : (firsts l)[index]? = some (ofLex l[index]).1 := by simp [firsts, hget]
    have hle1 : (ofLex x).1 ≤ (ofLex l[index]).1 := hp.above index _ hfirst hpi
    by_cases heq1 : (ofLex l[index]).1 = (ofLex x).1
    · rcases lt_trichotomy (ofLex l[index]).2 (ofLex x).2 with hlt | heq | hgt
      · have hlt' : l[index] < x := Prod.Lex.lt_iff.mpr (.inr ⟨heq1, hlt⟩)
        refine .inl ⟨index + 1, _, by simp [getIndex2Pass, hread1, hread2, heq1, hindex, hlt],
          ⟨rfl, by omega, hindex, fun m y hy hm => ?_⟩, by omega⟩
        exact lt_of_le_of_lt (le_of_sortedLE hsorted.sortedLE hy hget (by omega)) hlt'
      · refine .inr ⟨(true, index), by simp [getIndex2Pass, hread1, hread2, heq1, hindex, heq],
          .inl ⟨rfl, ?_⟩⟩
        have hx : l[index] = x := ofLex_inj.mp (Prod.ext heq1 heq)
        exact hx ▸ List.getElem_mem hindex
      · have hgt' : x < l[index] := Prod.Lex.lt_iff.mpr (.inr ⟨heq1.symm, hgt⟩)
        refine .inr ⟨(false, index), ?_,
          .inr ⟨rfl, isGap_of_lt hsorted.sortedLE hget hgt' hbelow⟩⟩
        simp [getIndex2Pass, hread1, hread2, heq1, hindex, hgt, not_lt.mpr hgt.le]
    · have hgt : x < l[index] := Prod.Lex.lt_iff.mpr (.inl (lt_of_le_of_ne hle1 (Ne.symm heq1)))
      exact .inr ⟨(false, index), by simp [getIndex2Pass, hread1, heq1],
        .inr ⟨rfl, isGap_of_lt hsorted.sortedLE hget hgt hbelow⟩⟩
  · have hend : index = l.length := by omega
    subst hend
    have hgap : IsGap l x l.length := isGap_length hbelow
    -- the pair is new, so there is a cell behind the last entry for the loop to read
    have hspace : l.length < array1.length := hroom.resolve_left hgap.not_mem
    exact .inr ⟨(false, l.length), by simp [getIndex2Pass, List.getElem?_eq_getElem hspace],
      .inr ⟨rfl, hgap⟩⟩

/-- The search finds the pair, or the place where it is missing. -/
theorem getIndex2_spec (hl1 : firsts l <+: array1) (hl2 : seconds l <+: array2)
    (hsorted : l.SortedLT) (hint : l.length ≤ 2 ^ 30)
    (hroom : x ∈ l ∨ l.length < array1.length) :
    ∃ r, sortedArrayGetIndex2 array1 array2 l.length (ofLex x).1 (ofLex x).2 = some r ∧
      ((r.1 = true ∧ x ∈ l) ∨ (r.1 = false ∧ IsGap l x r.2)) := by
  have hsorted1 := sortedLE_firsts hsorted
  obtain ⟨⟨found, p⟩, hrun, hp, hfound⟩ :=
    getIndex_spec (x := (ofLex x).1) hl1 hsorted1 (not_sumOverruns (by simpa using hint))
  rw [length_firsts] at hrun
  cases found with
  | true =>
      obtain ⟨r, hscan, hr⟩ := scan2_spec hl1 hl2 hsorted hroom hp
      exact ⟨r, by simp [sortedArrayGetIndex2, hrun, hscan], hr⟩
  | false =>
      have hgap1 : IsGap (firsts l) (ofLex x).1 p := hp.isGap hsorted1 (by simpa using hfound)
      refine ⟨(false, p), by simp [sortedArrayGetIndex2, hrun], .inr ⟨rfl, ?_, ?_, ?_⟩⟩
      · simpa using hgap1.le_length
      · intro m y hy hm
        exact Prod.Lex.lt_iff.mpr (.inl (hgap1.below m _ (by simp [firsts, hy]) hm))
      · intro m y hy hm
        exact Prod.Lex.lt_iff.mpr (.inl (hgap1.above m _ (by simp [firsts, hy]) hm))

/-- The shift of both arrays is the shift of each. -/
theorem shiftUp2_eq (index j : Nat) (array1 array2 : List (Ulong bits))
    (h1 : j < array1.length) (h2 : j < array2.length) :
    shiftUp2 array1 array2 index j = (shiftUp array1 index j).bind fun array1 =>
      (shiftUp array2 index j).map fun array2 => (array1, array2) := by
  induction j generalizing array1 array2 with
  | zero => rfl
  | succ j ih =>
      by_cases hindex : j + 1 > index
      · have hrest := ih (array1.set (j + 1) array1[j]) (array2.set (j + 1) array2[j])
          (by simp; omega) (by simp; omega)
        simpa [shiftUp2, shiftUp, hindex, store_of_lt h1, store_of_lt h2,
          List.getElem?_eq_getElem (show j < array1.length by omega),
          List.getElem?_eq_getElem (show j < array2.length by omega)] using hrest
      · simp [shiftUp2, shiftUp, hindex]

/-- The pairs in use are `l`, in arrays with `room1` and `room2` cells. -/
structure Holds2 (room1 room2 : Nat) (arrays : Arrays2 bits)
    (l : List (Ulong bits ×ₗ Ulong bits)) : Prop where
  count : arrays.count = l.length
  cells1 : firsts l <+: arrays.array1
  cells2 : seconds l <+: arrays.array2
  length1 : arrays.array1.length = room1
  length2 : arrays.array2.length = room2
  small : l.length ≤ 2 ^ 30

section Add2
variable {room1 room2 index : Nat} {arrays : Arrays2 bits}

/-- A pair that the search did not find goes to its place in both arrays. -/
theorem Holds2.insert (h : Holds2 room1 room2 arrays l) (hindex : index ≤ l.length)
    (hspace : l.length < min (min room1 room2) (2 ^ 30))
    (hsearch : sortedArrayGetIndex2 arrays.array1 arrays.array2 arrays.count (ofLex x).1 (ofLex x).2
      = some (false, index)) :
    ∃ arrays', sortedArrayAdd2 arrays (ofLex x).1 (ofLex x).2 = some arrays' ∧
      Holds2 room1 room2 arrays' (l.insertIdx index x) := by
  have hlen1 := h.length1
  have hlen2 := h.length2
  -- the upper cells of each array move up by one
  obtain ⟨array1', hrun1, hlen1', hcells1⟩ :=
    shiftUp_spec index l.length arrays.array1 (by omega)
  obtain ⟨array2', hrun2, hlen2', hcells2⟩ :=
    shiftUp_spec index l.length arrays.array2 (by omega)
  have hcells1' := insertIdx_prefix (x := (ofLex x).1) h.cells1 (by simpa using hindex)
    (by simp; omega) hlen1' (by simpa using hcells1)
  have hcells2' := insertIdx_prefix (x := (ofLex x).2) h.cells2 (by simpa using hindex)
    (by simp; omega) hlen2' (by simpa using hcells2)
  have hcount : int32 (l.length + 1) = l.length + 1 := int32_of_range (by omega) (by omega)
  have hshift : shiftUp2 arrays.array1 arrays.array2 index arrays.count =
      some (array1', array2') := by
    rw [h.count, shiftUp2_eq index _ _ _ (by omega) (by omega), hrun1, hrun2]
    rfl
  refine ⟨{ array1 := array1'.set index (ofLex x).1
            array2 := array2'.set index (ofLex x).2
            count := l.length + 1 }, ?_, ?_, ?_, ?_, ?_, ?_, ?_⟩
  · have hnonneg : ¬ (l.length : Int) + 1 < 0 := by omega
    have hnat : ((l.length : Int) + 1).toNat = l.length + 1 := by omega
    rw [h.count] at hsearch hshift
    simp [sortedArrayAdd2, hsearch, hshift, store_of_lt (show index < array1'.length by omega),
      store_of_lt (show index < array2'.length by omega), h.count, hcount, hnonneg, hnat]
  · exact (List.length_insertIdx_of_le_length hindex _).symm
  · simpa [firsts, List.map_insertIdx] using hcells1'
  · simpa [seconds, List.map_insertIdx] using hcells2'
  · simpa using hlen1'.trans hlen1
  · simpa using hlen2'.trans hlen2
  · rw [List.length_insertIdx_of_le_length hindex]
    omega

/-- A call inserts the pair at its place, or leaves the arrays as they are where the pair is
there. -/
theorem sortedArrayAdd2_spec (h : Holds2 room1 room2 arrays l) (hsorted : l.SortedLT)
    (hroom : x ∈ l ∨ l.length < min (min room1 room2) (2 ^ 30)) :
    ∃ arrays' l', sortedArrayAdd2 arrays (ofLex x).1 (ofLex x).2 = some arrays' ∧
      Holds2 room1 room2 arrays' l' ∧ l'.SortedLT ∧ ∀ y, y ∈ l' ↔ y = x ∨ y ∈ l := by
  have hlen1 := h.length1
  obtain ⟨⟨found, index⟩, hsearch, hr⟩ := getIndex2_spec (x := x) h.cells1 h.cells2 hsorted
    h.small (hroom.imp id fun hlt => by omega)
  rw [← h.count] at hsearch
  rcases hr with ⟨rfl, hx⟩ | ⟨rfl, hgap⟩
  · refine ⟨arrays, l, by simp [sortedArrayAdd2, hsearch], h, hsorted, fun y => ?_⟩
    constructor
    · intro hy
      exact .inr hy
    · rintro (rfl | hy)
      · exact hx
      · exact hy
  · obtain ⟨arrays', hrun, hholds⟩ :=
      h.insert hgap.le_length (hroom.resolve_left hgap.not_mem) hsearch
    exact ⟨arrays', _, hrun, hholds, hgap.sortedLT_insertIdx hsorted,
      fun y => List.mem_insertIdx hgap.le_length⟩

end Add2

/-- The pairs in use. -/
def pairs2 (arrays : Arrays2 bits) : List (Ulong bits × Ulong bits) :=
  (arrays.array1.zip arrays.array2).take arrays.count

/-- The pairs of the arrays are the list that they hold. -/
theorem Holds2.pairs2_eq {room1 room2 : Nat} {arrays : Arrays2 bits}
    (h : Holds2 room1 room2 arrays l) : pairs2 arrays = l.map ofLex := by
  have hzip : l.map ofLex = (firsts l).zip (seconds l) := List.zip_of_prod (by simp [firsts])
    (by simp [seconds])
  obtain ⟨rest1, hrest1⟩ := h.cells1
  obtain ⟨rest2, hrest2⟩ := h.cells2
  rw [pairs2, h.count, ← hrest1, ← hrest2, List.zip_append (by simp), hzip]
  exact List.take_left' (by simp)

end Arrays2

/-! ### Histories -/

section Histories
variable {bits : Nat}

/-- A history of numbers leaves exactly them, in order. -/
theorem addAll_spec (array numbers : List (Ulong bits)) (hcount : numbers.toFinset.card ≤ 65535)
    (hroom : numbers.toFinset.card ≤ array.length) :
    ∃ array' count, addAll array numbers = some (array', count) ∧ count ≤ array'.length ∧
      (array'.take count).SortedLT ∧ ∀ y, y ∈ array'.take count ↔ y ∈ numbers := by
  -- The induction over the numbers is that of any array that inserts (`foldlM_inserts`).
  let holds : List (Ulong bits) × Nat → List (Ulong bits) → Prop := fun s l =>
    s.2 = l.length ∧ l <+: s.1 ∧ s.1.length = array.length
  have hstep : ∀ s l x, holds s l → l.SortedLT → (x ∈ l ∨ l.length < min array.length 65535) →
      ∃ s' l', sortedArrayAdd s.1 s.2 x = some s' ∧ holds s' l' ∧ l'.SortedLT ∧
        ∀ y, y ∈ l' ↔ y = x ∨ y ∈ l := by
    rintro ⟨cells, count⟩ l x ⟨rfl, hl, hlen⟩ hsorted hspace
    simp only at hl hlen
    obtain ⟨array', l', hrun, hlen', hl', hsorted', hmem'⟩ := sortedArrayAdd_spec hl hsorted
      (hspace.imp id fun hlt => by omega) (hspace.imp id fun hlt => by omega)
    exact ⟨(array', l'.length), l', hrun, ⟨rfl, hl', hlen'.trans hlen⟩, hsorted', hmem'⟩
  have hstart : holds (array, 0) [] := ⟨rfl, List.nil_prefix, rfl⟩
  obtain ⟨⟨array', count⟩, l, hrun, ⟨rfl, hl, -⟩, hsorted, hmem⟩ :=
    foldlM_inserts hstep hstart numbers (by omega)
  have htake : array'.take l.length = l := (List.prefix_iff_eq_take.mp hl).symm
  refine ⟨array', l.length, hrun, hl.length_le, ?_, fun y => ?_⟩
  · rw [htake]
    exact hsorted
  · rw [htake]
    exact hmem y

/-- A history of pairs leaves exactly them, in lexicographic order. -/
theorem addAll2_spec (array1 array2 : List (Ulong bits)) (pairs : List (Ulong bits × Ulong bits))
    (hint : pairs.toFinset.card ≤ 2 ^ 30) (hroom1 : pairs.toFinset.card ≤ array1.length)
    (hroom2 : pairs.toFinset.card ≤ array2.length) :
    ∃ arrays, addAll2 array1 array2 pairs = some arrays ∧ arrays.count ≤ arrays.array1.length ∧
      arrays.count ≤ arrays.array2.length ∧ ((pairs2 arrays).map toLex).SortedLT ∧
      ∀ p, p ∈ pairs2 arrays ↔ p ∈ pairs := by
  -- the lexicographic order does not change the number of distinct pairs
  have hcard : (pairs.map toLex).toFinset.card = pairs.toFinset.card := by
    have himage : (pairs.map toLex).toFinset = pairs.toFinset.image toLex := by
      ext p
      simp
    rw [himage]
    exact Finset.card_image_of_injective _ toLex.injective
  have hstart : Holds2 array1.length array2.length
      { array1, array2, count := 0 } ([] : List (Ulong bits ×ₗ Ulong bits)) :=
    ⟨rfl, List.nil_prefix, List.nil_prefix, rfl, rfl, by simp⟩
  obtain ⟨arrays, l, hrun, hl, hsorted, hmem⟩ :=
    foldlM_inserts (fun arrays l x => sortedArrayAdd2_spec) hstart (pairs.map toLex) (by omega)
  have hpairs := hl.pairs2_eq
  refine ⟨arrays, ?_, ?_, ?_, ?_, fun p => ?_⟩
  · rw [List.foldlM_map] at hrun
    exact hrun
  · have := hl.cells1.length_le
    rw [hl.count]
    simpa using this
  · have := hl.cells2.length_le
    rw [hl.count]
    simpa using this
  · have hid : (l.map ofLex).map toLex = l := by
      rw [List.map_map]
      exact List.map_id l
    rw [hpairs, hid]
    exact hsorted
  · rw [hpairs]
    have := hmem (toLex p)
    simpa using this

/-- Every history of numbers, and every history of pairs, leaves after each step exactly
what was added, in strictly increasing order. -/
theorem sorted (array array1 array2 : List (Ulong bits)) (numbers : List (Ulong bits))
    (pairs : List (Ulong bits × Ulong bits)) :
    (numbers.toFinset.card < 65535 → numbers.toFinset.card ≤ array.length →
      ∀ added, added <+: numbers →
        ∃ array' count, addAll array added = some (array', count) ∧ count ≤ array'.length ∧
          (array'.take count).SortedLT ∧ ∀ x, x ∈ array'.take count ↔ x ∈ added) ∧
    (pairs.toFinset.card ≤ 2 ^ 30 → pairs.toFinset.card ≤ array1.length →
      pairs.toFinset.card ≤ array2.length → ∀ added, added <+: pairs →
        ∃ arrays, addAll2 array1 array2 added = some arrays ∧
          arrays.count ≤ arrays.array1.length ∧ arrays.count ≤ arrays.array2.length ∧
          ((pairs2 arrays).map toLex).SortedLT ∧ ∀ p, p ∈ pairs2 arrays ↔ p ∈ added) := by
  constructor
  · intro hcount hroom added hadded
    have hle : added.toFinset.card ≤ numbers.toFinset.card :=
      Finset.card_le_card fun x hx => by simpa using hadded.subset (by simpa using hx)
    exact addAll_spec array added (by omega) (by omega)
  · intro hint hroom1 hroom2 added hadded
    have hle : added.toFinset.card ≤ pairs.toFinset.card :=
      Finset.card_le_card fun x hx => by simpa using hadded.subset (by simpa using hx)
    exact addAll2_spec array1 array2 added (by omega) (by omega) (by omega)

/-- Five entries that arrive out of order, with an entry that arrives twice, in arrays of
just the size. -/
theorem sorted_five :
    (∃ array' count,
      addAll ([0, 0, 0, 0] : List (Ulong 32)) [7, 3, 9, 3, 1] = some (array', count) ∧
        (array'.take count).SortedLT) ∧
    ∃ arrays, addAll2 ([0, 0, 0, 0] : List (Ulong 32)) [0, 0, 0, 0]
      [(7, 1), (3, 5), (7, 1), (7, 0), (3, 9)] = some arrays ∧
      ((pairs2 arrays).map toLex).SortedLT := by
  have h := sorted ([0, 0, 0, 0] : List (Ulong 32)) [0, 0, 0, 0] [0, 0, 0, 0] [7, 3, 9, 3, 1]
    [(7, 1), (3, 5), (7, 1), (7, 0), (3, 9)]
  obtain ⟨array', count, hrun, -, hsorted, -⟩ :=
    h.1 (by decide) (by decide) [7, 3, 9, 3, 1] (List.prefix_refl _)
  obtain ⟨arrays, hrun2, -, -, hsorted2, -⟩ := h.2 (by decide) (by decide) (by decide)
    [(7, 1), (3, 5), (7, 1), (7, 0), (3, 9)] (List.prefix_refl _)
  exact ⟨⟨array', count, hrun, hsorted⟩, arrays, hrun2, hsorted2⟩

end Histories

end MyTestFiles.Proofs.SortedArray
