import MyTestFiles.Lib.Lagged
import MyTestFiles.Lib.Loop
import MyTestFiles.Mt19937.Genrand

/-!
# `MyTestFiles.Proofs.Mt19937.Recurrence`: the table and its recurrence

The three loops of `genrand_int32` are one pass over the table, in place: they replace `N` words of
a sequence that follows the recurrence by the next `N` (`generate_block`). `init_genrand` fills the
table with the words of its seed (`initGenrand_eq`).

* The loops differ in how they find the neighbours of an entry. The first reads both further up,
  the second has the lag reach round the end of the table, and the last entry has its neighbour at
  the front. Each is a `laggedPass` on its part of the table.
* `block N x b` is the table that holds the `N` words of the sequence `x` from `b` on, so a refill
  takes `b` to `b + N`.
* A table that has been seeded has no entry left of what it held before, so the seeding needs no
  assumption on the table but its length.

The split of the pass into three loops is an optimisation of the source that avoids a remainder in
the index. Here it is undone: with the three lemmas the refill is `N` lagged passes, to which the
library's induction applies.
-/

set_option autoImplicit false

namespace MyTestFiles.Proofs.Mt19937

open MyTestFiles.Lib MyTestFiles.Mt19937

variable {mt : List Word} {x : Nat → Word} {g : Genrand} {k : Nat}

/-- The table has a neighbour for its first entry. -/
theorem one_lt_N : 1 < N := by decide

/-- The lag is inside the table. -/
theorem M_lt_N : M < N := by decide

/-! ### The loops of `genrand_int32` -/

/-- A store inside the table. -/
theorem assign_of_lt (h : k < mt.length) (w : Word) : assign mt k w = some (mt.set k w) := by
  rw [assign, if_pos h]

/-- A store to an entry that can be read. -/
theorem assign_of_getElem? {u : Word} (h : mt[k]? = some u) (w : Word) :
    assign mt k w = some (mt.set k w) := by
  obtain ⟨hk, -⟩ := List.getElem?_eq_some_iff.mp h
  exact assign_of_lt hk w

/-- A pass of the first loop is a lagged pass. -/
theorem firstPass_eq (hk : k < N - M) : firstPass mt k = laggedPass twist N M mt k := by
  have hnext : (k + 1) % N = k + 1 := Nat.mod_eq_of_lt (by simp only [N, M] at hk ⊢; omega)
  have hlag : (k + M) % N = k + M := Nat.mod_eq_of_lt (by simp only [N, M] at hk ⊢; omega)
  rw [firstPass, laggedPass, hnext, hlag]
  cases hu : mt[k]? with
  | none => rfl
  | some u => simp only [assign_of_getElem? hu]

/-- A pass of the second loop is a lagged pass behind those of the first. -/
theorem secondPass_eq (hk : k < M - 1) :
    secondPass mt (N - M + k) = laggedPass twist N M mt (N - M + k) := by
  have hnext : (N - M + k + 1) % N = N - M + k + 1 :=
    Nat.mod_eq_of_lt (by simp only [N, M] at hk ⊢; omega)
  have hlag : (N - M + k + M) % N = N - M + k - (N - M) := by
    simp only [N, M] at hk ⊢
    omega
  rw [secondPass, laggedPass, hnext, hlag]
  cases hu : mt[N - M + k]? with
  | none => rfl
  | some u => simp only [assign_of_getElem? hu]

/-- The statement behind the loops is the last lagged pass. -/
theorem lastPass_eq : lastPass mt = laggedPass twist N M mt (N - 1) := by
  have hnext : (N - 1 + 1) % N = 0 := by decide
  have hlag : (N - 1 + M) % N = M - 1 := by decide
  rw [lastPass, laggedPass, hnext, hlag]
  cases hu : mt[N - 1]? with
  | none => rfl
  | some u => simp only [assign_of_getElem? hu]

/-- The three loops make the next `N` words. -/
theorem generate_block (hx : Follows twist N M x) (b : Nat) :
    generate (block N x b) = some (block N x (b + N)) := by
  have hpass : ∀ k < N, laggedPass twist N M (refreshed N x b k) k =
      some (refreshed N x b (k + 1)) := fun k hk => laggedPass_refreshed hx one_lt_N M_lt_N hk
  have hfirst : (List.range (N - M)).foldlM firstPass (refreshed N x b 0) =
      some (refreshed N x b (N - M)) :=
    foldlM_range_eq (refreshed N x b) fun k hk => by
      rw [firstPass_eq hk]
      exact hpass k (by simp only [N, M] at hk ⊢; omega)
  have hsecond : (List.range (M - 1)).foldlM (fun mt k => secondPass mt (N - M + k))
      (refreshed N x b (N - M + 0)) = some (refreshed N x b (N - M + (M - 1))) :=
    foldlM_range_eq (fun k => refreshed N x b (N - M + k)) fun k hk => by
      rw [secondPass_eq hk]
      exact hpass (N - M + k) (by simp only [N, M] at hk ⊢; omega)
  have hend : N - M + (M - 1) = N - 1 := by decide
  have hall : N - 1 + 1 = N := by decide
  have hlast : laggedPass twist N M (refreshed N x b (N - 1)) (N - 1) =
      some (refreshed N x b N) := by
    have hpassLast := hpass (N - 1) (by decide)
    rwa [hall] at hpassLast
  -- the second loop begins where the first has ended, and the last word is left
  rw [Nat.add_zero, hend] at hsecond
  rw [generate, ← refreshed_zero, hfirst, Option.bind_eq_bind, Option.bind_some, hsecond,
    Option.bind_some, lastPass_eq, hlast, refreshed_self]

/-! ### `init_genrand` -/

/-- The words of `init_genrand`. -/
def initWords (s : Word) : Nat → Word
  | 0 => s
  | k + 1 => 1812433253#32 * (initWords s k ^^^ (initWords s k >>> 30)) + BitVec.ofNat 32 (k + 1)

/-- The recurrence of the seeding. -/
theorem initWords_succ (s : Word) (k : Nat) : initWords s (k + 1) =
    1812433253#32 * (initWords s k ^^^ (initWords s k >>> 30)) + BitVec.ofNat 32 (k + 1) := by
  rw [initWords]

/-- A table is the block of the words it holds. -/
theorem eq_block (hlen : mt.length = N) (hmt : ∀ j < N, mt[j]? = some (x j)) :
    mt = block N x 0 := by
  refine List.ext_getElem? fun j => ?_
  by_cases hj : j < N
  · rw [hmt j hj, getElem?_block hj, Nat.zero_add]
  · rw [List.getElem?_eq_none (by omega), List.getElem?_eq_none (by rw [length_block]; omega)]

/-- Pass `i` of the loop, on a table whose words up to `i` stand. -/
theorem initPass_spec {s : Word} {i : Nat} (hi : i < N - 1)
    (hmt : mt.length = N ∧ ∀ j ≤ i, mt[j]? = some (initWords s j)) :
    ∃ mt', initPass mt (i + 1) = some mt' ∧
      mt'.length = N ∧ ∀ j ≤ i + 1, mt'[j]? = some (initWords s j) := by
  obtain ⟨hlen, hwords⟩ := hmt
  have hplace : i + 1 < mt.length := by omega
  refine ⟨mt.set (i + 1) (initWords s (i + 1)), ?_, ?_, fun j hj => ?_⟩
  · rw [initPass, Nat.add_sub_cancel, hwords i le_rfl, Option.bind_eq_bind, Option.bind_some,
      ← initWords_succ, assign_of_lt hplace]
  · rw [List.length_set, hlen]
  · by_cases hlast : j = i + 1
    · rw [hlast, List.getElem?_set_self hplace]
    · rw [List.getElem?_set_ne (by omega), hwords j (by omega)]

/-- Seeding fills the table, and the next number starts with a refill. -/
theorem initGenrand_eq (hlen : g.mt.length = N) (s : Word) :
    initGenrand g s = some ⟨block N (initWords s) 0, N⟩ := by
  have hzero : 0 < g.mt.length := by
    rw [hlen]
    decide
  have hstart : (g.mt.set 0 s)[0]? = some (initWords s 0) := by
    rw [List.getElem?_set_self hzero, initWords]
  obtain ⟨mt, hloop, hmt, hwords⟩ := foldlM_range_rule
    (fun i mt => mt.length = N ∧ ∀ j ≤ i, mt[j]? = some (initWords s j))
    (fun i mt hi hmt => initPass_spec hi hmt) (s := g.mt.set 0 s)
    ⟨by rw [List.length_set, hlen], fun j hj => by rw [Nat.le_zero.mp hj, hstart]⟩
  have hblock : mt = block N (initWords s) 0 := eq_block hmt fun j hj => hwords j (by omega)
  rw [initGenrand, assign_of_lt hzero, Option.bind_eq_bind, Option.bind_some, hloop,
    Option.bind_some, hblock]

end MyTestFiles.Proofs.Mt19937
