import Mathlib

/-!
# `MyTestFiles.Lib.Written`: what a sequence of writes leaves behind

A memory is a function of the cell. `Written cell value s before after` says that `after` is
`before` with `value k` in the cell `cell k` for every `k` in `s`, and with nothing else
changed. Two such sequences one after the other are one (`Written.union`) when they agree on
the cells they share, a memory that already holds the values is left as it is
(`written_self_iff`), and there is only one result (`Written.unique`).

`Copied` is the case of several copies of one block, each at its own place. A loop makes the
copy at the first place and goes on with the places that are left (`Copied.cons`).

The values are those that a cell has after the last write. A sequence that writes a cell twice is
an instance only if it writes the same value, and the lemmas that join two sequences ask for just
that.

The relation does not say in which order the writes were made. That is what makes it useful for a
loop that copies forwards in the source and is described as a set of cells in a statement.
-/

set_option autoImplicit false

namespace MyTestFiles.Lib

section Written
variable {ι κ κ' β : Type*}

/-- The values are in their cells, and every other cell is unchanged. -/
structure Written (cell : κ → ι) (value : κ → β) (s : Set κ) (before after : ι → β) : Prop where
  values : ∀ k ∈ s, after (cell k) = value k
  frame : ∀ a, (∀ k ∈ s, cell k ≠ a) → after a = before a

variable {cell : κ → ι} {value : κ → β} {s t : Set κ} {before middle after after' : ι → β}

/-- No write changes nothing. -/
theorem written_empty (cell : κ → ι) (value : κ → β) (memory : ι → β) :
    Written cell value ∅ memory memory where
  values := by simp
  frame := by simp

/-- Nothing is left to write exactly when the values are there. -/
theorem written_self_iff {memory : ι → β} :
    Written cell value s memory memory ↔ ∀ k ∈ s, memory (cell k) = value k := by
  constructor
  · exact Written.values
  · intro h
    exact ⟨h, fun _ _ => rfl⟩

/-- There is one memory after the writes. -/
theorem Written.unique (h : Written cell value s before after)
    (h' : Written cell value s before after') : after = after' := by
  funext a
  by_cases hwritten : ∃ k ∈ s, cell k = a
  · obtain ⟨k, hk, rfl⟩ := hwritten
    rw [h.values k hk, h'.values k hk]
  · have hfree : ∀ k ∈ s, cell k ≠ a := fun k hk heq => hwritten ⟨k, hk, heq⟩
    rw [h.frame a hfree, h'.frame a hfree]

/-- One sequence after the other. A shared cell gets one value. -/
theorem Written.union (h : Written cell value s before middle)
    (h' : Written cell value t middle after)
    (hshared : ∀ k ∈ s, ∀ l ∈ t, cell l = cell k → value l = value k) :
    Written cell value (s ∪ t) before after where
  values := by
    rintro k (hk | hk)
    -- the cell is written again, with the same value, or it is left alone
    · by_cases hagain : ∃ l ∈ t, cell l = cell k
      · obtain ⟨l, hl, heq⟩ := hagain
        rw [← heq, h'.values l hl, hshared k hk l hl heq]
      · rw [h'.frame _ fun l hl heq => hagain ⟨l, hl, heq⟩, h.values k hk]
    · exact h'.values k hk
  frame := by
    intro a ha
    rw [h'.frame a fun k hk => ha k (Or.inr hk), h.frame a fun k hk => ha k (Or.inl hk)]

/-- The writes are given by their values on `s`. -/
theorem Written.congr {value' : κ → β} (h : Written cell value s before after)
    (hsame : ∀ k ∈ s, value k = value' k) : Written cell value' s before after where
  values := fun k hk => (h.values k hk).trans (hsame k hk)
  frame := h.frame

/-- The same writes under other names. -/
theorem Written.image {names : κ' → κ} {s : Set κ'}
    (h : Written (cell ∘ names) (value ∘ names) s before after) :
    Written cell value (names '' s) before after where
  values := by
    rintro - ⟨k, hk, rfl⟩
    exact h.values k hk
  frame := by
    intro a ha
    exact h.frame a fun k hk => ha (names k) ⟨k, hk, rfl⟩

end Written

/-! ### Copies of a block -/

section Copied
variable {ι κ β : Type*}

/-- `after` is `before` with `count` copies of the block: the values of the block's cells `s`
are in the cells `place j k` of every copy `j`. -/
def Copied (place : Nat → κ → ι) (block : κ → β) (s : Set κ) (count : Nat)
    (before after : ι → β) : Prop :=
  Written (fun p : Nat × κ => place p.1 p.2) (fun p => block p.2) {p | p.1 < count ∧ p.2 ∈ s}
    before after

variable {place : Nat → κ → ι} {block : κ → β} {s : Set κ} {n : Nat}
variable {before middle after after' : ι → β}

/-- There is one memory after the copies. -/
theorem Copied.unique (h : Copied place block s n before after)
    (h' : Copied place block s n before after') : after = after' :=
  Written.unique h h'

/-- The copies are given by the block on `s`. -/
theorem Copied.congr {block' : κ → β} (h : Copied place block s n before after)
    (hsame : ∀ k ∈ s, block k = block' k) : Copied place block' s n before after :=
  Written.congr h fun p hp => hsame p.2 hp.2

/-- No copy changes nothing. -/
theorem copied_zero_iff : Copied place block s 0 before after ↔ after = before := by
  have hempty : {p : Nat × κ | p.1 < 0 ∧ p.2 ∈ s} = ∅ := by
    ext p
    simp
  unfold Copied
  rw [hempty]
  constructor
  · intro h
    exact h.unique (written_empty _ _ _)
  · rintro rfl
    exact written_empty _ _ _

/-- A memory is its own result where every place holds the block already. -/
theorem copied_self_iff {memory : ι → β} :
    Copied place block s n memory memory ↔
      ∀ j < n, ∀ k ∈ s, memory (place j k) = block k := by
  unfold Copied
  rw [written_self_iff]
  constructor
  · intro h j hj k hk
    exact h (j, k) ⟨hj, hk⟩
  · rintro h ⟨j, k⟩ ⟨hj, hk⟩
    exact h j hj k hk

/-- The first copy, and then the copies at the other places. They do not meet the first. -/
theorem Copied.cons (h : Written (place 0) block s before middle)
    (h' : Copied (fun j => place (j + 1)) block s n middle after)
    (hapart : ∀ j < n, ∀ k ∈ s, ∀ l ∈ s, place (j + 1) l ≠ place 0 k) :
    Copied place block s (n + 1) before after := by
  -- the cells of the first copy and of the others, by number and cell of the block
  have hset : {p : Nat × κ | p.1 < n + 1 ∧ p.2 ∈ s} =
      (fun k => (0, k)) '' s ∪ (fun p => (p.1 + 1, p.2)) '' {p : Nat × κ | p.1 < n ∧ p.2 ∈ s} := by
    ext ⟨j, k⟩
    constructor
    · rintro ⟨hj, hk⟩
      cases j with
      | zero => exact Or.inl ⟨k, hk, rfl⟩
      | succ j => exact Or.inr ⟨(j, k), ⟨Nat.lt_of_succ_lt_succ hj, hk⟩, rfl⟩
    · rintro (⟨k', hk', heq⟩ | ⟨⟨j', k'⟩, ⟨hj', hk'⟩, heq⟩)
      · cases heq
        exact ⟨Nat.succ_pos n, hk'⟩
      · cases heq
        exact ⟨Nat.succ_lt_succ hj', hk'⟩
  unfold Copied
  rw [hset]
  have hfirst : Written (fun p : Nat × κ => place p.1 p.2) (fun p => block p.2)
      ((fun k => (0, k)) '' s) before middle := Written.image h
  have hothers : Written (fun p : Nat × κ => place p.1 p.2) (fun p => block p.2)
      ((fun p => (p.1 + 1, p.2)) '' {p : Nat × κ | p.1 < n ∧ p.2 ∈ s}) middle after :=
    Written.image h'
  refine hfirst.union hothers ?_
  rintro - ⟨k, hk, rfl⟩ - ⟨⟨j, l⟩, ⟨hj, hl⟩, rfl⟩ heq
  exact absurd heq (hapart j hj k hk l hl)

/-- One copy is a sequence of writes. -/
theorem copied_one (h : Written (place 0) block s before after) :
    Copied place block s 1 before after := by
  refine Copied.cons h (copied_zero_iff.mpr rfl) ?_
  intro j hj
  exact absurd hj (Nat.not_lt_zero j)

end Copied

end MyTestFiles.Lib
