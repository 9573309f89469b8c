import Mathlib

/-!
# `MyTestFiles.Lib.Insertion`: sorted lists and insertion points

`IsLowerBound l x p` says that `p` is the first place of `l` with an entry that is not
below `x`, and `IsGap l x p` that `x` is missing and belongs at `p`. Inserting at a gap
keeps a list strictly sorted (`IsGap.sortedLT_insertIdx`). A `Bracket` is the interval that
a binary search still has to look at, and `foldlM_inserts` is the rule for histories of
insertions.

The search rules are stated for places and not for indices of a particular type. A program whose
indices are machine integers uses them where its arithmetic does not wrap, which it has to show
itself.

* A search has to end at one of the two places: `IsLowerBound` for a search that also answers on
  duplicates, `IsGap` for one that is only asked about missing values.
* `foldlM_inserts` has the step of a machine as a premise. It says what one call does to the list
  that the state holds, and the conclusion is about the list after any history: it is sorted and
  has the values of the history.

The lists may be over any linear order. Pairs are covered by the lexicographic order.
-/

set_option autoImplicit false

namespace MyTestFiles.Lib

section Insertion
variable {α : Type*} [LinearOrder α] {l : List α} {x : α} {p : Nat}

/-- The first `p` entries of `l` are below `x` and the others are not. -/
structure IsLowerBound (l : List α) (x : α) (p : Nat) : Prop where
  le_length : p ≤ l.length
  below : ∀ m y, l[m]? = some y → m < p → y < x
  above : ∀ m y, l[m]? = some y → p ≤ m → x ≤ y

/-- The first `p` entries of `l` are below `x` and the others are above it. -/
structure IsGap (l : List α) (x : α) (p : Nat) : Prop where
  le_length : p ≤ l.length
  below : ∀ m y, l[m]? = some y → m < p → y < x
  above : ∀ m y, l[m]? = some y → p ≤ m → x < y

/-- In a sorted list an entry further on is not smaller. -/
theorem le_of_sortedLE (h : l.SortedLE) {m n : Nat} {y z : α} (hy : l[m]? = some y)
    (hz : l[n]? = some z) (hmn : m ≤ n) : y ≤ z := by
  obtain ⟨hm, rfl⟩ := List.getElem?_eq_some_iff.mp hy
  obtain ⟨hn, rfl⟩ := List.getElem?_eq_some_iff.mp hz
  exact h.getElem_le_getElem_of_le hmn

/-- A lower bound is the first index of an entry that is not below `x`. -/
theorem IsLowerBound.eq_findIdx (h : IsLowerBound l x p) : p = l.findIdx fun y => x ≤ y := by
  symm
  rcases Nat.lt_or_eq_of_le h.le_length with hlt | rfl
  · rw [List.findIdx_eq hlt]
    constructor
    · exact decide_eq_true (h.above p _ (List.getElem?_eq_getElem hlt) (Nat.le_refl p))
    · intro m hm
      exact decide_eq_false (not_le.mpr (h.below m _ (List.getElem?_eq_getElem (by omega)) hm))
  · rw [List.findIdx_eq_length]
    intro y hy
    obtain ⟨m, hm⟩ := List.mem_iff_getElem?.mp hy
    obtain ⟨hmlen, -⟩ := List.getElem?_eq_some_iff.mp hm
    exact decide_eq_false (not_le.mpr (h.below m y hm hmlen))

/-- A value that occurs occurs at its lower bound. -/
theorem IsLowerBound.getElem?_eq_iff (h : IsLowerBound l x p) (hsorted : l.SortedLE) :
    l[p]? = some x ↔ x ∈ l := by
  constructor
  · exact List.mem_of_getElem?
  · intro hx
    obtain ⟨m, hm⟩ := List.mem_iff_getElem?.mp hx
    obtain ⟨hmlen, -⟩ := List.getElem?_eq_some_iff.mp hm
    have hpm : p ≤ m := by
      by_contra hlt
      exact lt_irrefl x (h.below m x hm (by omega))
    have hp : l[p]? = some l[p] := List.getElem?_eq_getElem (by omega)
    have hle : l[p] ≤ x := le_of_sortedLE hsorted hp hm hpm
    have hge : x ≤ l[p] := h.above p _ hp (Nat.le_refl p)
    rw [hp, le_antisymm hle hge]

/-- A value that is not at its lower bound is missing. -/
theorem IsLowerBound.isGap (h : IsLowerBound l x p) (hsorted : l.SortedLE)
    (hne : l[p]? ≠ some x) : IsGap l x p where
  le_length := h.le_length
  below := h.below
  above m y hy hm := by
    obtain ⟨hmlen, -⟩ := List.getElem?_eq_some_iff.mp hy
    have hp : l[p]? = some l[p] := List.getElem?_eq_getElem (by omega)
    have hxp : x ≤ l[p] := h.above p _ hp (Nat.le_refl p)
    have hpy : l[p] ≤ y := le_of_sortedLE hsorted hp hy hm
    have hlt : x < l[p] := lt_of_le_of_ne hxp fun heq => hne (heq ▸ hp)
    exact lt_of_lt_of_le hlt hpy

/-- The first entry above `x` makes a gap. -/
theorem isGap_of_lt {y : α} (hsorted : l.SortedLE) (hp : l[p]? = some y) (hlt : x < y)
    (hbelow : ∀ m z, l[m]? = some z → m < p → z < x) : IsGap l x p where
  le_length := by
    obtain ⟨hlen, -⟩ := List.getElem?_eq_some_iff.mp hp
    omega
  below := hbelow
  above m z hz hm := lt_of_lt_of_le hlt (le_of_sortedLE hsorted hp hz hm)

/-- With every entry below `x` the end is a gap. -/
theorem isGap_length (hbelow : ∀ m z, l[m]? = some z → m < l.length → z < x) :
    IsGap l x l.length where
  le_length := Nat.le_refl _
  below := hbelow
  above m z hz hm := by
    obtain ⟨hlen, -⟩ := List.getElem?_eq_some_iff.mp hz
    omega

/-- A number with a gap is not in the list. -/
theorem IsGap.not_mem (h : IsGap l x p) : x ∉ l := by
  intro hx
  obtain ⟨m, hm⟩ := List.mem_iff_getElem?.mp hx
  rcases Nat.lt_or_ge m p with hlt | hge
  · exact lt_irrefl x (h.below m x hm hlt)
  · exact lt_irrefl x (h.above m x hm hge)

/-- Inserting at a gap keeps the list strictly sorted. -/
theorem IsGap.sortedLT_insertIdx (h : IsGap l x p) (hsorted : l.SortedLT) :
    (l.insertIdx p x).SortedLT := by
  have hlt : ∀ {m n : Nat} {y z : α}, l[m]? = some y → l[n]? = some z → m < n → y < z := by
    intro m n y z hy hz hmn
    obtain ⟨hm, rfl⟩ := List.getElem?_eq_some_iff.mp hy
    obtain ⟨hn, rfl⟩ := List.getElem?_eq_some_iff.mp hz
    exact hsorted.getElem_lt_getElem_of_lt hmn
  rw [List.sortedLT_iff_pairwise, List.pairwise_iff_getElem]
  intro m n hm hn hmn
  have hy := List.getElem?_eq_getElem hm
  have hz := List.getElem?_eq_getElem hn
  generalize (l.insertIdx p x)[m] = y at hy ⊢
  generalize (l.insertIdx p x)[n] = z at hz ⊢
  rw [List.getElem?_insertIdx] at hy hz
  have hp := h.le_length
  -- where the two entries stand on the two sides of the new one
  rcases Nat.lt_trichotomy n p with hnp | rfl | hnp
  · rw [if_pos (by omega)] at hy hz
    exact hlt hy hz hmn
  · rw [if_neg (by omega), if_pos rfl, if_pos hp] at hz
    rw [if_pos hmn] at hy
    cases hz
    exact h.below m y hy hmn
  · rw [if_neg (by omega), if_neg (by omega)] at hz
    rcases Nat.lt_trichotomy m p with hmp | rfl | hmp
    · rw [if_pos hmp] at hy
      exact hlt hy hz (by omega)
    · rw [if_neg (by omega), if_pos rfl, if_pos hp] at hy
      cases hy
      exact h.above (n - 1) z hz (by omega)
    · rw [if_neg (by omega), if_neg (by omega)] at hy
      exact hlt hy hz (by omega)

/-! ### Brackets -/

/-- The entries before `i` are below `x` and those after `j` are above it. -/
structure Bracket (l : List α) (x : α) (i : Nat) (j : Int) : Prop where
  start_le : (i : Int) ≤ j + 1
  end_lt : j < l.length
  below : ∀ m y, l[m]? = some y → m < i → y < x
  above : ∀ (m : Nat) (y : α), l[m]? = some y → j < m → x < y

/-- At the start of a search all entries are still to be looked at. -/
theorem Bracket.whole : Bracket l x 0 ((l.length : Int) - 1) where
  start_le := by omega
  end_lt := by omega
  below m y _ hm := absurd hm (Nat.not_lt_zero m)
  above m y hy hm := by
    obtain ⟨hlen, -⟩ := List.getElem?_eq_some_iff.mp hy
    omega

variable {i k : Nat} {j : Int} {y : α}

/-- An entry below `x` moves the start of the bracket behind it. -/
theorem Bracket.raise (h : Bracket l x i j) (hsorted : l.SortedLE) (hk : l[k]? = some y)
    (hy : y < x) (hkj : (k : Int) ≤ j) : Bracket l x (k + 1) j where
  start_le := by omega
  end_lt := h.end_lt
  below m z hz hm := lt_of_le_of_lt (le_of_sortedLE hsorted hz hk (by omega)) hy
  above := h.above

/-- An entry above `x` moves the end of the bracket before it. -/
theorem Bracket.lower (h : Bracket l x i j) (hsorted : l.SortedLE) (hk : l[k]? = some y)
    (hy : x < y) (hik : i ≤ k) : Bracket l x i ((k : Int) - 1) where
  start_le := by omega
  end_lt := by
    obtain ⟨hlen, -⟩ := List.getElem?_eq_some_iff.mp hk
    omega
  below := h.below
  above m z hz hm := lt_of_lt_of_le hy (le_of_sortedLE hsorted hk hz (by omega))

/-! ### Histories -/

/-- A machine whose step inserts a value into the sorted list that the state holds, as long
as there is room for a new value, holds after any history exactly the values of it. -/
theorem foldlM_inserts {σ : Type*} {step : σ → α → Option σ} {holds : σ → List α → Prop}
    {capacity : Nat}
    (hstep : ∀ s l x, holds s l → l.SortedLT → (x ∈ l ∨ l.length < capacity) →
      ∃ s' l', step s x = some s' ∧ holds s' l' ∧ l'.SortedLT ∧ ∀ y, y ∈ l' ↔ y = x ∨ y ∈ l)
    {start : σ} (hstart : holds start []) (xs : List α) (hroom : xs.toFinset.card ≤ capacity) :
    ∃ s l, xs.foldlM step start = some s ∧ holds s l ∧ l.SortedLT ∧ ∀ y, y ∈ l ↔ y ∈ xs := by
  induction xs using List.reverseRecOn with
  | nil => exact ⟨start, [], rfl, hstart, (by simp [List.sortedLT_iff_pairwise]), fun y => Iff.rfl⟩
  | append_singleton xs x ih =>
      have hsub : xs.toFinset ⊆ (xs ++ [x]).toFinset := by
        intro y hy
        simp only [List.mem_toFinset, List.mem_append] at hy ⊢
        exact .inl hy
      obtain ⟨s, l, hrun, hl, hsorted, hmem⟩ := ih ((Finset.card_le_card hsub).trans hroom)
      -- a value that is not in the list is new, and the distinct values have room
      have hspace : x ∈ l ∨ l.length < capacity := by
        by_cases hx : x ∈ l
        · exact .inl hx
        · have heq : xs.toFinset = l.toFinset := by
            ext y
            simp [hmem y]
          have hcard : (xs ++ [x]).toFinset.card = l.length + 1 := by
            rw [List.toFinset_append, heq, Finset.union_comm]
            show (insert x l.toFinset).card = l.length + 1
            rw [Finset.card_insert_of_notMem (by simpa using hx),
              List.toFinset_card_of_nodup hsorted.nodup]
          exact .inr (by omega)
      obtain ⟨s', l', hs', hl', hsorted', hmem'⟩ := hstep s l x hl hsorted hspace
      refine ⟨s', l', by simp [hrun, hs'], hl', hsorted', fun y => ?_⟩
      rw [hmem' y, hmem y, List.mem_append, List.mem_singleton, or_comm]

end Insertion

end MyTestFiles.Lib
