import Mathlib

/-!
# `MyTestFiles.Lib.Laminar`: nested blocks and their smallest covers

Any two members of a laminar family are nested or disjoint. `IsLargest 𝓕 S A` says that `A`
is a member inside `S` and that no larger member is. `Covers.length_le` is the use of these:
disjoint largest members of a set are never more than the members of any cover of the set.

`dyadic k q` is the block of the `2 ^ k` numbers with quotient `q`. The blocks of all sizes
are a laminar family (`dyadic_nested_or_disjoint`), since a larger block that shares a number
with a smaller one contains it (`dyadic_subset_of_mem`).

A cover may use any members inside the set and may cover it more than once. The lemma counts by an
injection: every member of the cover is inside one of the largest members, and none of these can
do without a member of the cover.

The definitions are about sets of any type, and only the dyadic blocks are about numbers. What a
program with another notion of block has to show is that its blocks are nested or disjoint.
-/

set_option autoImplicit false

namespace MyTestFiles.Lib

section Laminar
variable {α : Type*} {𝓕 : Set (Set α)} {S R A B : Set α} {x : α}

/-- Any two members are nested or disjoint. -/
def Laminar (𝓕 : Set (Set α)) : Prop :=
  ∀ A ∈ 𝓕, ∀ B ∈ 𝓕, A ⊆ B ∨ B ⊆ A ∨ Disjoint A B

/-- A member inside `S` that is not inside a larger one. -/
def IsLargest (𝓕 : Set (Set α)) (S A : Set α) : Prop :=
  Maximal (fun B => B ∈ 𝓕 ∧ B ⊆ S) A

/-- Members of the family with the union `S`. -/
structure Covers (𝓕 : Set (Set α)) (S : Set α) (cover : List (Set α)) : Prop where
  members : ∀ A ∈ cover, A ∈ 𝓕
  union : ∀ x, x ∈ S ↔ ∃ A ∈ cover, x ∈ A

/-- The members of a cover are inside the set. -/
theorem Covers.subset {cover : List (Set α)} (h : Covers 𝓕 S cover) (hA : A ∈ cover) : A ⊆ S :=
  fun x hx => (h.union x).mpr ⟨A, hA, hx⟩

/-- Whatever member meets a largest one is inside it. -/
theorem IsLargest.subset_of_mem (h : IsLargest 𝓕 S A) (hlaminar : Laminar 𝓕) (hB : B ∈ 𝓕)
    (hBS : B ⊆ S) (hxA : x ∈ A) (hxB : x ∈ B) : B ⊆ A := by
  rcases hlaminar A h.prop.1 B hB with hAB | hBA | hdisjoint
  · exact h.le_of_ge ⟨hB, hBS⟩ hAB
  · exact hBA
  · exact absurd hxB (Set.disjoint_left.mp hdisjoint hxA)

/-- A largest member of a part is a largest member of the whole, when members of the whole
that meet the part stay inside it. -/
theorem IsLargest.of_part (h : IsLargest 𝓕 R A) (hRS : R ⊆ S) (hne : A.Nonempty)
    (hpart : ∀ B ∈ 𝓕, B ⊆ S → ∀ x ∈ B, x ∈ R → B ⊆ R) : IsLargest 𝓕 S A := by
  refine ⟨⟨h.prop.1, h.prop.2.trans hRS⟩, ?_⟩
  rintro B ⟨hB, hBS⟩ hAB
  obtain ⟨x, hx⟩ := hne
  exact h.le_of_ge ⟨hB, hpart B hB hBS x (hAB hx) (h.prop.2 hx)⟩ hAB

/-- No cover has fewer members than there are disjoint largest ones. -/
theorem Covers.length_le {blocks cover : List (Set α)} (hcover : Covers 𝓕 S cover)
    (hlaminar : Laminar 𝓕) (hlargest : ∀ A ∈ blocks, IsLargest 𝓕 S A)
    (hne : ∀ A ∈ 𝓕, A.Nonempty) (hdisjoint : blocks.Pairwise Disjoint) :
    blocks.length ≤ cover.length := by
  classical
  have hnodup : blocks.Nodup := by
    refine hdisjoint.imp_of_mem fun {A B} hA _ hAB heq => ?_
    subst heq
    exact (hne A (hlargest A hA).prop.1).ne_empty (disjoint_self.mp hAB)
  -- a point of a block is in some member of the cover, which is then inside the block
  have hinside : ∀ A ∈ blocks, ∃ C ∈ cover, C ⊆ A := by
    intro A hA
    obtain ⟨x, hx⟩ := hne A (hlargest A hA).prop.1
    obtain ⟨C, hC, hxC⟩ := (hcover.union x).mp ((hlargest A hA).prop.2 hx)
    exact ⟨C, hC, (hlargest A hA).subset_of_mem hlaminar (hcover.members C hC)
      (hcover.subset hC) hx hxC⟩
  choose! member hmember hsub using hinside
  have hinj : Set.InjOn member blocks.toFinset := by
    intro A hA B hB heq
    simp only [List.coe_toFinset, Set.mem_ofPred_eq] at hA hB
    obtain ⟨x, hx⟩ := hne (member A) (hcover.members _ (hmember A hA))
    have hxA : x ∈ A := hsub A hA hx
    have hxB : x ∈ B := hsub B hB (heq ▸ hx)
    have hBA := (hlargest A hA).subset_of_mem hlaminar (hlargest B hB).prop.1
      (hlargest B hB).prop.2 hxA hxB
    have hAB := (hlargest B hB).subset_of_mem hlaminar (hlargest A hA).prop.1
      (hlargest A hA).prop.2 hxB hxA
    exact hAB.antisymm hBA
  calc blocks.length = blocks.toFinset.card := (List.toFinset_card_of_nodup hnodup).symm
    _ ≤ cover.toFinset.card := by
        refine Finset.card_le_card_of_injOn member (fun A hA => ?_) hinj
        simp only [List.coe_toFinset, Set.mem_ofPred_eq] at hA ⊢
        exact hmember A hA
    _ ≤ cover.length := List.toFinset_card_le cover

end Laminar

/-! ### Blocks of numbers -/

section Dyadic
variable {k k' q q' x y : Nat}

/-- The `2 ^ k` numbers with quotient `q`. -/
def dyadic (k q : Nat) : Set Nat := {x | x / 2 ^ k = q}

/-- A dyadic block is an interval. -/
theorem mem_dyadic_iff : x ∈ dyadic k q ↔ q * 2 ^ k ≤ x ∧ x < q * 2 ^ k + 2 ^ k := by
  have hpos : 0 < 2 ^ k := Nat.two_pow_pos k
  rw [dyadic, Set.mem_ofPred_eq, Nat.div_eq_iff hpos]
  omega

/-- A larger block is a coarser quotient. -/
theorem div_two_pow_of_le (hk : k ≤ k') (x : Nat) : x / 2 ^ k' = x / 2 ^ k / 2 ^ (k' - k) := by
  rw [Nat.div_div_eq_div_mul, ← Nat.pow_add, Nat.add_sub_cancel' hk]

/-- A block that has a number in common with a larger one is inside it. -/
theorem dyadic_subset_of_mem (hk : k ≤ k') (hx : x ∈ dyadic k q) (hx' : x ∈ dyadic k' q') :
    dyadic k q ⊆ dyadic k' q' := by
  intro y hy
  have hxk : x / 2 ^ k = q := hx
  have hyk : y / 2 ^ k = q := hy
  have hxk' : x / 2 ^ k' = q' := hx'
  show y / 2 ^ k' = q'
  rw [div_two_pow_of_le hk, hyk, ← hxk, ← div_two_pow_of_le hk, hxk']

/-- Two blocks are nested or disjoint. -/
theorem dyadic_nested_or_disjoint (k q k' q' : Nat) :
    dyadic k q ⊆ dyadic k' q' ∨ dyadic k' q' ⊆ dyadic k q ∨
      Disjoint (dyadic k q) (dyadic k' q') := by
  by_cases hmeet : ∃ x, x ∈ dyadic k q ∧ x ∈ dyadic k' q'
  · obtain ⟨x, hx, hx'⟩ := hmeet
    rcases Nat.le_total k k' with hk | hk
    · exact .inl (dyadic_subset_of_mem hk hx hx')
    · exact .inr (.inl (dyadic_subset_of_mem hk hx' hx))
  · refine .inr (.inr (Set.disjoint_left.mpr fun x hx hx' => hmeet ⟨x, hx, hx'⟩))

end Dyadic

end MyTestFiles.Lib
