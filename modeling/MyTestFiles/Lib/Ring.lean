import Mathlib

/-!
# `MyTestFiles.Lib.Ring`: a queue in a circular array

An array used as a ring: `base` is the cell of the oldest item, `curr` the cell after the
newest one, and both wrap at the end of the array. `IsRing cells base curr items` says that
the cells from `base` up to `curr` hold `items`. Both an empty and a completely full ring
have `base = curr` (`IsRing.base_eq_curr_iff`), which is why such queues keep a spare cell.

`IsRing.push` and `IsRing.pop` are the two moves. `Fifo` is the bounded queue that such an
array implements.

The relation is stated over `window cells base n`, the list of the `n` cells from `base` on with
the wrap. A queue operation changes the window at one end only, so the proofs follow the list and
the arithmetic of the wrap is in the lemmas on `nextCell`.

`Fifo` has its capacity in the type and the bound on its items as a field, so an overfull queue
cannot be built. `Fifo.enqueue` takes the overwrite mode: with it the oldest item gives way, and
without it the new item is dropped.
-/

set_option autoImplicit false

namespace MyTestFiles.Lib

/-! ### Cells that wrap -/

/-- The cell after `i` in a ring of `size` cells. -/
def nextCell (size i : Nat) : Nat := if size ≤ i + 1 then 0 else i + 1

/-- The next cell is in the array. -/
theorem nextCell_lt {size i : Nat} (h : 0 < size) : nextCell size i < size := by
  simp only [nextCell]
  split <;> omega

/-- The next cell, with the wrap as a remainder. -/
theorem nextCell_eq_mod {size i : Nat} (h : i < size) : nextCell size i = (i + 1) % size := by
  simp only [nextCell]
  split
  · have hlast : i + 1 = size := by omega
    simp [hlast]
  · rw [Nat.mod_eq_of_lt (by omega)]

/-- Moving the start one cell on shortens the distance by one. -/
theorem nextCell_add_mod {size i n : Nat} (h : i < size) :
    (nextCell size i + n) % size = (i + (n + 1)) % size := by
  rw [nextCell_eq_mod h, Nat.mod_add_mod, Nat.add_assoc, Nat.add_comm 1 n]

/-- The next cell of a remainder. -/
theorem nextCell_mod {size i : Nat} (h : 0 < size) :
    nextCell size (i % size) = (i + 1) % size := by
  rw [nextCell_eq_mod (Nat.mod_lt i h), Nat.mod_add_mod]

/-- The cell a distance away is the cell itself only after a whole number of turns. -/
theorem add_mod_eq_self_iff {size i n : Nat} (hi : i < size) (hn : n ≤ size) :
    (i + n) % size = i ↔ n = 0 ∨ n = size := by
  constructor
  · intro h
    by_cases hwrap : i + n < size
    · rw [Nat.mod_eq_of_lt hwrap] at h
      omega
    · rw [Nat.mod_eq_sub_mod (by omega)] at h
      by_cases hfar : i + n - size < size
      · rw [Nat.mod_eq_of_lt hfar] at h
        omega
      · omega
  · rintro (rfl | rfl)
    · exact Nat.mod_eq_of_lt hi
    · rw [Nat.add_mod_right, Nat.mod_eq_of_lt hi]

/-! ### The items of a ring -/

section Window
variable {α : Type*}

/-- The `n` cells from `base` on, in order. -/
def window (cells : List α) : Nat → Nat → List α
  | _, 0 => []
  | base, n + 1 => cells[base]?.toList ++ window cells (nextCell cells.length base) n

/-- The window of no cells is empty. -/
@[simp] theorem window_zero (cells : List α) (base : Nat) : window cells base 0 = [] := rfl

/-- A window starts with its first cell and goes on at the next one. -/
theorem window_succ {cells : List α} {base : Nat} (h : base < cells.length) (n : Nat) :
    window cells base (n + 1) = cells[base] :: window cells (nextCell cells.length base) n := by
  simp [window, h]

/-- The last cell of a window. -/
theorem window_succ_last {cells : List α} {base : Nat} (h : base < cells.length) (n : Nat) :
    window cells base (n + 1)
      = window cells base n ++ cells[(base + n) % cells.length]?.toList := by
  induction n generalizing base with
  | zero => simp [window, Nat.mod_eq_of_lt h]
  | succ n ih =>
      have hnext := nextCell_lt (i := base) (Nat.zero_lt_of_lt h)
      rw [window_succ h, ih hnext, window_succ h, nextCell_add_mod h, List.cons_append]

/-- A write to a cell beyond the window leaves the window alone. -/
theorem window_set_of_le {cells : List α} {base n m : Nat} (h : base < cells.length)
    (hnm : n ≤ m) (hm : m < cells.length) (x : α) :
    window (cells.set ((base + m) % cells.length) x) base n = window cells base n := by
  induction n generalizing base m with
  | zero => rfl
  | succ n ih =>
      have hnext := nextCell_lt (i := base) (Nat.zero_lt_of_lt h)
      -- the written cell is not the first one, because `0 < m < cells.length`
      have hne : (base + m) % cells.length ≠ base := by
        rw [Ne, add_mod_eq_self_iff h (by omega)]
        omega
      obtain ⟨k, rfl⟩ : ∃ k, m = k + 1 := ⟨m - 1, by omega⟩
      have hrest := ih hnext (by omega : n ≤ k) (by omega)
      rw [nextCell_add_mod h] at hrest
      simp only [window, List.length_set, List.getElem?_set_ne hne, hrest]

end Window

section Ring
variable {α : Type*} {cells : List α} {base curr : Nat} {items : List α}

/-- The cells from `base` up to `curr` hold `items`, oldest first. -/
structure IsRing (cells : List α) (base curr : Nat) (items : List α) : Prop where
  base_lt : base < cells.length
  fits : items.length ≤ cells.length
  curr_eq : curr = (base + items.length) % cells.length
  holds : window cells base items.length = items

namespace IsRing

/-- The array of a ring has a cell. -/
theorem size_pos (h : IsRing cells base curr items) : 0 < cells.length :=
  Nat.zero_lt_of_lt h.base_lt

/-- The cell after the newest item is in the array. -/
theorem curr_lt (h : IsRing cells base curr items) : curr < cells.length := by
  rw [h.curr_eq]
  exact Nat.mod_lt _ h.size_pos

/-- Equal indices mean an empty or a completely full ring. -/
theorem base_eq_curr_iff (h : IsRing cells base curr items) :
    base = curr ↔ items = [] ∨ items.length = cells.length := by
  rw [h.curr_eq, eq_comm, add_mod_eq_self_iff h.base_lt h.fits, List.length_eq_zero_iff]

/-- The number of items, from the two indices. -/
theorem length_eq (h : IsRing cells base curr items) (hspare : items.length < cells.length) :
    (items.length : Int) = ((curr : Int) - base) % cells.length := by
  have hmod : ((curr : Int) - base) % cells.length = (items.length : Int) % cells.length := by
    rw [h.curr_eq]
    push_cast
    rw [Int.emod_sub_emod, add_sub_cancel_left]
  rw [hmod, Int.emod_eq_of_lt (by omega) (by omega)]

/-- An empty ring. -/
theorem nil (hlt : base < cells.length) : IsRing cells base base [] where
  base_lt := hlt
  fits := by simp
  curr_eq := by simp [Nat.mod_eq_of_lt hlt]
  holds := rfl

/-- A write at `curr` appends an item. -/
theorem push (h : IsRing cells base curr items) (hspare : items.length < cells.length) (x : α) :
    IsRing (cells.set curr x) base (nextCell cells.length curr) (items ++ [x]) where
  base_lt := by simpa using h.base_lt
  fits := by simpa using hspare
  curr_eq := by
    rw [h.curr_eq, nextCell_mod h.size_pos]
    simp [Nat.add_assoc]
  holds := by
    have hlt : base < (cells.set curr x).length := by simpa using h.base_lt
    have hcurr : curr < cells.length := h.curr_lt
    rw [List.length_append, List.length_singleton, window_succ_last hlt, List.length_set,
      ← h.curr_eq, List.getElem?_set_self hcurr]
    have hkeep : window (cells.set curr x) base items.length = items := by
      rw [h.curr_eq, window_set_of_le h.base_lt le_rfl hspare, h.holds]
    rw [hkeep, Option.toList_some]

/-- The cell at `base` holds the oldest item, and the ring from the next cell on the rest. -/
theorem pop {x : α} {rest : List α} (h : IsRing cells base curr (x :: rest)) :
    cells[base]? = some x ∧ IsRing cells (nextCell cells.length base) curr rest := by
  have hholds := h.holds
  rw [List.length_cons, window_succ h.base_lt] at hholds
  injection hholds with hfirst hrest
  refine ⟨by rw [List.getElem?_eq_getElem h.base_lt, hfirst], ?_⟩
  exact
    { base_lt := nextCell_lt h.size_pos
      fits := by have := h.fits; simp only [List.length_cons] at this; omega
      curr_eq := by rw [h.curr_eq, nextCell_add_mod h.base_lt, List.length_cons]
      holds := hrest }

end IsRing
end Ring

/-! ### The bounded queue -/

/-- A queue of at most `capacity` items, oldest first. -/
structure Fifo (α : Type*) (capacity : Nat) where
  items : List α
  bounded : items.length ≤ capacity

namespace Fifo
variable {α : Type*} {capacity : Nat}

/-- The queue without items. -/
def empty : Fifo α capacity := ⟨[], Nat.zero_le _⟩

/-- The empty queue has no items. -/
@[simp] theorem items_empty : (empty : Fifo α capacity).items = [] := rfl

/-- Whether another item would exceed the capacity. -/
def full (q : Fifo α capacity) : Bool := q.items.length = capacity

/-- Append an item. A full queue drops its oldest item first when `overwrite` is set, and
stays as it is otherwise. -/
def enqueue (overwrite : Bool) (q : Fifo α capacity) (x : α) : Fifo α capacity :=
  if hfull : q.full = true then
    if overwrite then ⟨(q.items ++ [x]).tail, by have := q.bounded; simp [this]⟩ else q
  else ⟨q.items ++ [x], by
    have := q.bounded
    simp only [full, decide_eq_true_eq] at hfull
    simp only [List.length_append, List.length_singleton]
    omega⟩

/-- Drop the oldest item. -/
def dequeue (q : Fifo α capacity) : Fifo α capacity :=
  ⟨q.items.tail, by have := q.bounded; simp only [List.length_tail]; omega⟩

/-- The oldest item leaves. -/
@[simp] theorem items_dequeue (q : Fifo α capacity) : q.dequeue.items = q.items.tail := rfl

/-- An item that has room goes to the end. -/
theorem items_enqueue_of_not_full (overwrite : Bool) {q : Fifo α capacity} (h : q.full = false)
    (x : α) : (q.enqueue overwrite x).items = q.items ++ [x] := by
  simp [enqueue, h]

/-- In the overwrite mode the oldest item makes room. -/
theorem items_enqueue_of_full {q : Fifo α capacity} (h : q.full = true) (x : α) :
    (q.enqueue true x).items = (q.items ++ [x]).tail := by
  simp [enqueue, h]

/-- Without the overwrite mode a full queue stays as it is. -/
theorem enqueue_of_full {q : Fifo α capacity} (h : q.full = true) (x : α) :
    q.enqueue false x = q := by
  simp [enqueue, h]

/-- The items of a queue after an enqueue were there before, or are the new one. -/
theorem mem_enqueue {overwrite : Bool} {q : Fifo α capacity} {x y : α}
    (h : y ∈ (q.enqueue overwrite x).items) : y ∈ q.items ∨ y = x := by
  simp only [enqueue] at h
  split_ifs at h
  · simpa using List.mem_of_mem_tail h
  · exact Or.inl h
  · simpa using h

end Fifo

end MyTestFiles.Lib
