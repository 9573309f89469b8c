import Mathlib

/-!
# `MyTestFiles.Lib.Keyed`: entries found by a key

A list of entries, each with a key. `put` replaces the entry with the same key, or adds one at
the end. Afterwards a search finds that entry under its key, and under any other key what it
found before (`find?_put`).

A list that is only changed by `put` has no key twice (`nodup_put`), so it is a finite map in the
order in which its keys came.

The key is a function of the entry, of any type with decidable equality. The order of the entries
is kept, which matters where the table of a program is a chain and a walk meets its entries in
that order.

`find?_of_mem` reads a table the other way: where no key occurs twice, every entry is what its own
key finds.
-/

set_option autoImplicit false

namespace MyTestFiles.Lib

section Keyed
variable {α κ : Type*} [DecidableEq κ] (key : α → κ)

/-- The list with the entry `x` in the place of the one with its key, or at the end. -/
def put (x : α) : List α → List α
  | [] => [x]
  | y :: ys => if key y = key x then x :: ys else y :: put x ys

variable {key} {x y : α} {ys : List α}

/-- The entry is found under its key, and all others as before. -/
theorem find?_put (x : α) (ys : List α) (k : κ) :
    (put key x ys).find? (fun y => key y = k) =
      if key x = k then some x else ys.find? (fun y => key y = k) := by
  induction ys with
  | nil => by_cases hk : key x = k <;> simp [put, hk]
  | cons y ys ih =>
      rw [put]
      by_cases hxy : key y = key x
      · rw [if_pos hxy]
        by_cases hk : key x = k
        · simp [hk]
        · simp [hk, hxy]
      · rw [if_neg hxy]
        by_cases hk : key y = k
        · have hne : key x ≠ k := fun h => hxy (hk.trans h.symm)
          simp [hk, hne]
        · rw [List.find?_cons_of_neg (by simpa using hk),
            List.find?_cons_of_neg (by simpa using hk), ih]

/-- Nothing else comes into the list. -/
theorem mem_put (h : y ∈ put key x ys) : y = x ∨ y ∈ ys := by
  induction ys with
  | nil => exact .inl (by simpa [put] using h)
  | cons z ys ih =>
      rw [put] at h
      split at h
      · rcases List.mem_cons.mp h with rfl | h
        · exact .inl rfl
        · exact .inr (List.mem_cons_of_mem z h)
      · rcases List.mem_cons.mp h with rfl | h
        · exact .inr List.mem_cons_self
        · exact (ih h).imp_right (List.mem_cons_of_mem z)

/-- No key comes in twice. -/
theorem nodup_put (h : (ys.map key).Nodup) : ((put key x ys).map key).Nodup := by
  induction ys with
  | nil => simp [put]
  | cons y ys ih =>
      obtain ⟨hy, hys⟩ := List.nodup_cons.mp h
      rw [put]
      split
      · next hxy =>
          rw [List.map_cons, ← hxy]
          exact h
      · next hxy =>
          refine List.nodup_cons.mpr ⟨fun hmem => ?_, ih hys⟩
          obtain ⟨z, hz, heq⟩ := List.mem_map.mp hmem
          rcases mem_put hz with rfl | hz
          · exact hxy heq.symm
          · exact hy (heq ▸ List.mem_map_of_mem hz)

/-- Where no key occurs twice, an entry is what its key finds. -/
theorem find?_of_mem (h : (ys.map key).Nodup) (hy : y ∈ ys) :
    ys.find? (fun z => key z = key y) = some y := by
  induction ys with
  | nil => simp at hy
  | cons z ys ih =>
      obtain ⟨hz, hys⟩ := List.nodup_cons.mp h
      rcases List.mem_cons.mp hy with rfl | hy
      · simp
      · have hne : key z ≠ key y := fun heq => hz (heq ▸ List.mem_map_of_mem hy)
        rw [List.find?_cons_of_neg (by simpa using hne)]
        exact ih hys hy

end Keyed

end MyTestFiles.Lib
