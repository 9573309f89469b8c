import Mathlib

/-!
# `MyTestFiles.Lib.Lagged`: a recurrence computed in place

A sequence follows a lagged recurrence when each value comes from the value `n` places before,
the one after that, and the one `n - m` places before (`Follows`). A table of `n` values is
replaced by the next `n` in place: pass `k` overwrites entry `k`, and reads entries that are
already new where the lag reaches round the end (`laggedPass_refreshed`). `n` values in a row
determine all that follow (`Follows.eq_of_block`).

Everything is over an arbitrary type and an arbitrary function of three values, so the sequence
may be one of words, of numbers or of bits. `lagged` is the sequence with given first values,
which shows that there is one for every table.

`laggedPass` reads three entries of the table, at places that are computed with the remainder by
`n`. A program that splits the passes into several loops to avoid the remainder is compared with
it loop by loop.
-/

set_option autoImplicit false

namespace MyTestFiles.Lib

section Lagged
variable {α : Type*} {f : α → α → α → α} {n m : Nat} {x x' : Nat → α}

/-- Each value comes from three values before it. -/
def Follows (f : α → α → α → α) (n m : Nat) (x : Nat → α) : Prop :=
  ∀ k, x (k + n) = f (x k) (x (k + 1)) (x (k + m))

/-! ### The sequence from its first values -/

/-- The sequence whose first `n` values are given. -/
def lagged (f : α → α → α → α) (n m : Nat) (hn : 1 < n) (hm : m < n) (seed : Nat → α) (k : Nat) :
    α :=
  if k < n then seed k
  else f (lagged f n m hn hm seed (k - n)) (lagged f n m hn hm seed (k - n + 1))
    (lagged f n m hn hm seed (k - n + m))
termination_by k

/-- The first values are those that were given. -/
theorem lagged_of_lt {hn : 1 < n} {hm : m < n} {seed : Nat → α} {k : Nat} (hk : k < n) :
    lagged f n m hn hm seed k = seed k := by
  rw [lagged, if_pos hk]

/-- The sequence follows the recurrence. -/
theorem follows_lagged (hn : 1 < n) (hm : m < n) (seed : Nat → α) :
    Follows f n m (lagged f n m hn hm seed) := by
  intro k
  rw [lagged, if_neg (by omega), Nat.add_sub_cancel]

/-- Two sequences with `n` equal values in a row are equal from there on. -/
theorem Follows.eq_of_block (h : Follows f n m x) (h' : Follows f n m x') (hn : 1 < n) (hm : m < n)
    {p p' : Nat} (hblock : ∀ j < n, x (p + j) = x' (p' + j)) (k : Nat) :
    x (p + k) = x' (p' + k) := by
  induction k using Nat.strong_induction_on with
  | _ k ih =>
      by_cases hk : k < n
      · exact hblock k hk
      · have hx := h (p + (k - n))
        have hx' := h' (p' + (k - n))
        have hplace (q : Nat) : q + (k - n) + n = q + k := by omega
        rw [hplace, Nat.add_assoc, Nat.add_assoc] at hx hx'
        rw [hx, hx', ih (k - n) (by omega), ih (k - n + 1) (by omega), ih (k - n + m) (by omega)]

/-! ### The table -/

/-- The table with the values from `b` on. -/
def block (n : Nat) (x : Nat → α) (b : Nat) : List α := (List.range n).map fun j => x (b + j)

/-- The table in which the first `i` entries are already those of the next block. -/
def refreshed (n : Nat) (x : Nat → α) (b i : Nat) : List α :=
  (List.range n).map fun j => if j < i then x (b + n + j) else x (b + j)

/-- A block has `n` values. -/
@[simp] theorem length_block (n : Nat) (x : Nat → α) (b : Nat) : (block n x b).length = n := by
  simp [block]

/-- The values of a block. -/
theorem getElem?_block {b j : Nat} (hj : j < n) : (block n x b)[j]? = some (x (b + j)) := by
  simp [block, hj]

/-- Before the first pass the table holds a block. -/
theorem refreshed_zero (n : Nat) (x : Nat → α) (b : Nat) : refreshed n x b 0 = block n x b := by
  simp [refreshed, block]

/-- After `n` passes it holds the next block. -/
theorem refreshed_self (n : Nat) (x : Nat → α) (b : Nat) :
    refreshed n x b n = block n x (b + n) := by
  refine List.map_congr_left fun j hj => ?_
  rw [if_pos (List.mem_range.mp hj)]

/-- During the passes the entries below the current one are new and the others old. -/
theorem getElem?_refreshed {b i j : Nat} (hj : j < n) :
    (refreshed n x b i)[j]? = some (if j < i then x (b + n + j) else x (b + j)) := by
  simp [refreshed, hj]

/-- Pass `k`, on the table as it then is. -/
def laggedPass (f : α → α → α → α) (n m : Nat) (t : List α) (k : Nat) : Option (List α) := do
  let u ← t[k]?
  let v ← t[(k + 1) % n]?
  let w ← t[(k + m) % n]?
  some (t.set k (f u v w))

/-- The entry at a place up to `n` behind, in the table of pass `k`. -/
theorem getElem?_refreshed_mod {b k d : Nat} (hk : k < n) (hd : d < n) :
    (refreshed n x b k)[(k + d) % n]? = some (x (b + k + d)) := by
  by_cases hround : k + d < n
  · rw [Nat.mod_eq_of_lt hround, getElem?_refreshed hround, if_neg (by omega), Nat.add_assoc]
  · -- the lag reaches round the end, to an entry that is already new
    have hmod : (k + d) % n = k + d - n := by
      rw [Nat.mod_eq_sub_mod (by omega), Nat.mod_eq_of_lt (by omega)]
    have hplace : b + n + (k + d - n) = b + k + d := by omega
    rw [hmod, getElem?_refreshed (by omega), if_pos (by omega), hplace]

/-- One pass makes one entry new. The entry at the lag is new already where the lag reaches round
the end. -/
theorem laggedPass_refreshed (h : Follows f n m x) (hn : 1 < n) (hm : m < n) {b k : Nat}
    (hk : k < n) :
    laggedPass f n m (refreshed n x b k) k = some (refreshed n x b (k + 1)) := by
  have hself : (refreshed n x b k)[k]? = some (x (b + k)) := by
    rw [getElem?_refreshed hk, if_neg (lt_irrefl k)]
  have hset : (refreshed n x b k).set k (x (b + k + n)) = refreshed n x b (k + 1) := by
    refine List.ext_getElem? fun j => ?_
    by_cases hj : j < n
    · rw [getElem?_refreshed hj, List.getElem?_set, getElem?_refreshed hj]
      by_cases hjk : k = j
      · have hplace : b + k + n = b + n + k := by omega
        subst hjk
        rw [if_pos rfl, if_pos (by simpa [refreshed] using hk), if_pos (Nat.lt_succ_self k), hplace]
      · rw [if_neg hjk]
        simp only [show j < k + 1 ↔ j < k by omega]
    · rw [List.getElem?_eq_none (by simpa [refreshed] using hj),
        List.getElem?_eq_none (by simpa [refreshed] using hj)]
  simp only [laggedPass, hself, getElem?_refreshed_mod hk hn, getElem?_refreshed_mod hk hm,
    Option.bind_eq_bind, Option.bind_some, ← h (b + k), hset]

end Lagged

end MyTestFiles.Lib
