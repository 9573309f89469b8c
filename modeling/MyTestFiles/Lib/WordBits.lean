import Mathlib

/-!
# `MyTestFiles.Lib.WordBits`: arrays of words as sets of bits

Bit `o` of an array of `w`-bit words is bit `o % w` of word `o / w`. `bitAt` reads it, and
is false beyond the array. The lemmas say what a write of one word or of a block does to
the bits (`bitAt_set`, `bitAt_splice`, `bitAt_fill`), that the bits determine the words
(`words_ext`), and that the ones of all words together are the set bits (`onesBelow_word`).

`IsNext` is the least set bit from a position on, and `positions` lists all of them.

A write changes whole words, while a reader sees bits. `splice` overwrites a block of words and
`fill` a block with copies of one word. For each of them one lemma says which bits come from the
block and which from the old array, and no statement further up unfolds a write again.

The width of the words is a parameter, and all statements are about offsets, so a change of the
width of a program's words changes no proof. Counting (`onesBelow`) and searching (`IsNext`) are
defined on offsets as well, and connected with single words by one lemma each.
-/

set_option autoImplicit false

namespace MyTestFiles.Lib

section Bits
variable {w : Nat} {words : List (BitVec w)}

/-- Bit `o` of an array of words. -/
def bitAt (words : List (BitVec w)) (o : Nat) : Bool :=
  (words.getD (o / w) 0).getLsbD (o % w)

/-- A bit of the array is a bit of its word. -/
theorem bitAt_of_getElem? {x : BitVec w} {o : Nat} (h : words[o / w]? = some x) :
    bitAt words o = x.getLsbD (o % w) := by
  rw [bitAt, List.getD_eq_getElem?_getD, h, Option.getD_some]

/-- Beyond the array every bit is false. -/
theorem bitAt_of_ge {o : Nat} (h : words.length ≤ o / w) : bitAt words o = false := by
  rw [bitAt, List.getD_eq_default _ _ h]
  exact BitVec.getLsbD_zero

/-- A write of one word changes its bits only. -/
theorem bitAt_set {i : Nat} (h : i < words.length) (x : BitVec w) (o : Nat) :
    bitAt (words.set i x) o = if o / w = i then x.getLsbD (o % w) else bitAt words o := by
  simp only [bitAt, List.getD_eq_getElem?_getD]
  split
  · rename_i heq
    rw [heq, List.getElem?_set_self h, Option.getD_some]
  · rename_i hne
    rw [List.getElem?_set_ne (Ne.symm hne)]

/-- A mask of one bit tests that bit. -/
theorem and_one_shiftLeft_ne_zero_iff {j : Nat} (h : j < w) (x : BitVec w) :
    x &&& (1#w <<< j) ≠ 0 ↔ x.getLsbD j = true := by
  rw [← BitVec.twoPow_eq, BitVec.and_twoPow]
  constructor
  · intro hne
    by_contra hbit
    simp [hbit] at hne
  · intro hbit hzero
    rw [if_pos hbit] at hzero
    have hself : (BitVec.twoPow w j).getLsbD j = true := by simp [h]
    simp [hzero] at hself

/-- A word with one bit set has no other. -/
theorem getLsbD_one_shiftLeft {j : Nat} (h : j < w) (i : Nat) :
    (1#w <<< j).getLsbD i = decide (i = j) := by
  rw [← BitVec.twoPow_eq, BitVec.getLsbD_twoPow]
  simp [h, eq_comm]

/-- The words with those from `start` on replaced by a block. -/
def splice (words : List (BitVec w)) (start : Nat) (block : List (BitVec w)) : List (BitVec w) :=
  words.take start ++ (block ++ words.drop (start + block.length))

/-- A block that fits keeps the length of the array. -/
theorem length_splice {start : Nat} {block : List (BitVec w)}
    (h : start + block.length ≤ words.length) :
    (splice words start block).length = words.length := by
  simp only [splice, List.length_append, List.length_take, List.length_drop]
  omega

/-- A block changes the bits of its words only. -/
theorem bitAt_splice {start : Nat} {block : List (BitVec w)}
    (h : start + block.length ≤ words.length) (o : Nat) :
    bitAt (splice words start block) o
      = if start ≤ o / w ∧ o / w < start + block.length then bitAt block (o - w * start)
        else bitAt words o := by
  have htake : (words.take start).length = start := by
    rw [List.length_take]
    omega
  by_cases hlow : o / w < start
  · rw [if_neg (fun hin => absurd hin.1 (by omega))]
    simp only [bitAt, splice, List.getD_eq_getElem?_getD]
    rw [List.getElem?_append_left (by omega), List.getElem?_take_of_lt hlow]
  · -- the bit `o` is bit `o - w * start` of what follows the first words
    have hle : w * start ≤ o :=
      (Nat.mul_le_mul_left w (by omega)).trans (Nat.mul_div_le o w)
    have hdiv : (o - w * start) / w = o / w - start := Nat.sub_mul_div o w start
    have hmod : (o - w * start) % w = o % w := Nat.sub_mul_mod hle
    by_cases hhigh : o / w < start + block.length
    · rw [if_pos ⟨by omega, hhigh⟩]
      simp only [bitAt, splice, List.getD_eq_getElem?_getD, hdiv, hmod]
      rw [List.getElem?_append_right (by omega), htake, List.getElem?_append_left (by omega)]
    · rw [if_neg (fun hin => absurd hin.2 hhigh)]
      simp only [bitAt, splice, List.getD_eq_getElem?_getD]
      have hindex : start + block.length + (o / w - start - block.length) = o / w := by omega
      rw [List.getElem?_append_right (by omega), htake, List.getElem?_append_right (by omega),
        List.getElem?_drop, hindex]

/-- The words with `count` of them from `start` on replaced by `x`. -/
def fill (words : List (BitVec w)) (start count : Nat) (x : BitVec w) : List (BitVec w) :=
  words.take start ++ (List.replicate count x ++ words.drop (start + count))

/-- Filling is writing a block of equal words. -/
theorem fill_eq_splice (words : List (BitVec w)) (start count : Nat) (x : BitVec w) :
    fill words start count x = splice words start (List.replicate count x) := by
  rw [fill, splice, List.length_replicate]

/-- A fill that fits keeps the length of the array. -/
theorem length_fill {start count : Nat} (h : start + count ≤ words.length) (x : BitVec w) :
    (fill words start count x).length = words.length := by
  rw [fill_eq_splice]
  exact length_splice (by rwa [List.length_replicate])

/-- An empty fill changes nothing. -/
@[simp] theorem fill_zero (words : List (BitVec w)) (start : Nat) (x : BitVec w) :
    fill words start 0 x = words := by
  simp [fill]

/-- The bits of an array of equal words. -/
theorem bitAt_replicate {count o : Nat} (h : o / w < count) (x : BitVec w) :
    bitAt (List.replicate count x) o = x.getLsbD (o % w) :=
  bitAt_of_getElem? (by rw [List.getElem?_replicate, if_pos h])

/-- A filled block changes the bits of its words only. -/
theorem bitAt_fill {start count : Nat} (h : start + count ≤ words.length) (x : BitVec w)
    (o : Nat) :
    bitAt (fill words start count x) o
      = if start ≤ o / w ∧ o / w < start + count then x.getLsbD (o % w) else bitAt words o := by
  rw [fill_eq_splice, bitAt_splice (by rwa [List.length_replicate]), List.length_replicate]
  by_cases hin : start ≤ o / w ∧ o / w < start + count
  · have hle : w * start ≤ o :=
      (Nat.mul_le_mul_left w hin.1).trans (Nat.mul_div_le o w)
    have hdiv : (o - w * start) / w = o / w - start := Nat.sub_mul_div o w start
    rw [if_pos hin, if_pos hin, bitAt_replicate (by omega), Nat.sub_mul_mod hle]
  · rw [if_neg hin, if_neg hin]

/-- The bits of a block that is read from other words. -/
theorem bitAt_take_drop {start count o : Nat} (h : o / w < count) (hw : 0 < w) :
    bitAt ((words.drop start).take count) o = bitAt words (w * start + o) := by
  have hdiv : (w * start + o) / w = start + o / w := Nat.mul_add_div hw start o
  simp only [bitAt, List.getD_eq_getElem?_getD, hdiv, Nat.mul_add_mod]
  rw [List.getElem?_take_of_lt h, List.getElem?_drop]

/-- The first `n` words of `d` replaced by `f` of those of `a` and `b`. -/
def combineWords (f : BitVec w → BitVec w → BitVec w) (a b d : List (BitVec w)) (n : Nat) :
    List (BitVec w) :=
  (List.zipWith f (a.take n) (b.take n)) ++ d.drop n

/-- Combining two arrays word by word keeps the length of the destination. -/
theorem length_combineWords {f : BitVec w → BitVec w → BitVec w} {a b d : List (BitVec w)}
    {n : Nat} (ha : n ≤ a.length) (hb : n ≤ b.length) (hc : n ≤ d.length) :
    (combineWords f a b d n).length = d.length := by
  simp only [combineWords, List.length_append, List.length_zipWith, List.length_take,
    List.length_drop]
  omega

/-- Behind the combined words the destination is as before. -/
theorem getElem?_combineWords {f : BitVec w → BitVec w → BitVec w} {a b d : List (BitVec w)}
    {n : Nat} (ha : n ≤ a.length) (hb : n ≤ b.length) {i : Nat} (hi : n ≤ i) :
    (combineWords f a b d n)[i]? = d[i]? := by
  have hlen : (List.zipWith f (a.take n) (b.take n)).length = n := by simp [ha, hb]
  have hindex : n + (i - n) = i := by omega
  rw [combineWords, List.getElem?_append_right (by omega), hlen, List.getElem?_drop, hindex]

/-- One more word. -/
theorem combineWords_succ {f : BitVec w → BitVec w → BitVec w} {a b d : List (BitVec w)} {n : Nat}
    {x y : BitVec w} (hx : a[n]? = some x) (hy : b[n]? = some y) (hc : n < d.length) :
    (combineWords f a b d n).set n (f x y) = combineWords f a b d (n + 1) := by
  obtain ⟨ha, rfl⟩ := List.getElem?_eq_some_iff.mp hx
  obtain ⟨hb, rfl⟩ := List.getElem?_eq_some_iff.mp hy
  have hlen : (List.zipWith f (a.take n) (b.take n)).length = n := by simp; omega
  have htake : (a.take n).length = (b.take n).length := by simp; omega
  rw [combineWords, combineWords, List.set_append_right _ _ (by omega), hlen, Nat.sub_self,
    List.drop_eq_getElem_cons hc, List.set_cons_zero, List.take_succ_eq_append_getElem ha,
    List.take_succ_eq_append_getElem hb, List.zipWith_append htake,
    List.append_assoc]
  rfl

/-- A bitwise combination of words combines their bits. -/
theorem bitAt_combineWords {f : BitVec w → BitVec w → BitVec w} {g : Bool → Bool → Bool}
    (hf : ∀ x y : BitVec w, ∀ j < w, (f x y).getLsbD j = g (x.getLsbD j) (y.getLsbD j))
    {a b d : List (BitVec w)} {n : Nat} (ha : n ≤ a.length) (hb : n ≤ b.length) (hw : 0 < w)
    (o : Nat) :
    bitAt (combineWords f a b d n) o
      = if o / w < n then g (bitAt a o) (bitAt b o) else bitAt d o := by
  have hlen : (List.zipWith f (a.take n) (b.take n)).length = n := by simp [ha, hb]
  split
  · rename_i hlt
    have hget : (combineWords f a b d n)[o / w]? = some (f a[o / w] b[o / w]) := by
      rw [combineWords, List.getElem?_append_left (by omega), List.getElem?_zipWith,
        List.getElem?_take_of_lt hlt, List.getElem?_take_of_lt hlt,
        List.getElem?_eq_getElem (by omega), List.getElem?_eq_getElem (by omega)]
    rw [bitAt_of_getElem? hget, hf _ _ _ (Nat.mod_lt o hw),
      bitAt_of_getElem? (List.getElem?_eq_getElem (by omega)),
      bitAt_of_getElem? (List.getElem?_eq_getElem (by omega))]
  · rename_i hge
    rw [bitAt, bitAt, List.getD_eq_getElem?_getD, getElem?_combineWords ha hb (by omega),
      List.getD_eq_getElem?_getD]

/-- The bits determine the words. -/
theorem words_ext {words' : List (BitVec w)} (hw : 0 < w) (hlen : words.length = words'.length)
    (h : ∀ o < w * words.length, bitAt words o = bitAt words' o) : words = words' := by
  apply List.ext_getElem hlen
  intro i hi hi'
  apply BitVec.eq_of_getLsbD_eq
  intro j hj
  have hdiv : (w * i + j) / w = i := by
    rw [Nat.mul_add_div hw, Nat.div_eq_of_lt hj, Nat.add_zero]
  have hmod : (w * i + j) % w = j := by
    rw [Nat.mul_add_mod, Nat.mod_eq_of_lt hj]
  have hlt : w * i + j < w * words.length :=
    calc w * i + j < w * i + w := by omega
      _ = w * (i + 1) := by ring
      _ ≤ w * words.length := Nat.mul_le_mul_left w hi
  have hbit := h (w * i + j) hlt
  rwa [bitAt_of_getElem? (by rw [hdiv]; exact List.getElem?_eq_getElem hi),
    bitAt_of_getElem? (by rw [hdiv]; exact List.getElem?_eq_getElem hi'), hmod] at hbit

/-! ### Counting -/

/-- The number of ones of a word. -/
def ones (x : BitVec w) : Nat := (List.range w).countP fun j => x.getLsbD j

/-- The number of set bits among the first `n`. -/
def onesBelow (words : List (BitVec w)) (n : Nat) : Nat := (List.range n).countP (bitAt words)

/-- The ones below the end of a word are those below its start and its own. -/
theorem onesBelow_word (i : Nat) (hi : i < words.length) :
    onesBelow words (w * (i + 1)) = onesBelow words (w * i) + ones words[i] := by
  have hsplit : w * (i + 1) = w * i + w := by ring
  rw [onesBelow, hsplit, List.range_add, List.countP_append, List.countP_map]
  congr 1
  apply List.countP_congr
  intro j hj
  have hlt : j < w := List.mem_range.mp hj
  have hdiv : (w * i + j) / w = i := by
    rw [Nat.mul_add_div (by omega), Nat.div_eq_of_lt hlt, Nat.add_zero]
  have hmod : (w * i + j) % w = j := by
    rw [Nat.mul_add_mod, Nat.mod_eq_of_lt hlt]
  have hbit : bitAt words (w * i + j) = words[i].getLsbD j := by
    rw [bitAt_of_getElem? (by rw [hdiv]; exact List.getElem?_eq_getElem hi), hmod]
  simp [hbit]

/-- Bits that are not set do not count. -/
theorem onesBelow_of_clear {m n : Nat} (hmn : m ≤ n)
    (h : ∀ o, m ≤ o → o < n → bitAt words o = false) : onesBelow words n = onesBelow words m := by
  obtain ⟨k, rfl⟩ := Nat.exists_eq_add_of_le hmn
  rw [onesBelow, List.range_add, List.countP_append, List.countP_map, onesBelow]
  have hzero : (List.range k).countP (bitAt words ∘ fun x => m + x) = 0 := by
    rw [List.countP_eq_zero]
    intro j hj
    have hlt : j < k := List.mem_range.mp hj
    simp [h (m + j) (by omega) (by omega)]
  omega

end Bits

/-! ### The next set bit -/

section Next
variable {p : Nat → Bool} {start stop : Nat}

/-- `r` is the least position from `start` on, below `stop`, where `p` holds. -/
def IsNext (p : Nat → Bool) (start stop r : Nat) : Prop :=
  start ≤ r ∧ r < stop ∧ p r = true ∧ ∀ o, start ≤ o → o < r → p o = false

/-- The positions from `start` on, below `stop`, where `p` holds. -/
def positions (p : Nat → Bool) (start stop : Nat) : List Nat :=
  (List.range' start (stop - start)).filter p

/-- The positions of a section are the set bits in it. -/
theorem mem_positions {o : Nat} :
    o ∈ positions p start stop ↔ start ≤ o ∧ o < stop ∧ p o = true := by
  simp only [positions, List.mem_filter, List.mem_range'_1]
  constructor
  · intro h
    exact ⟨h.1.1, by omega, h.2⟩
  · intro h
    exact ⟨⟨h.1, by omega⟩, h.2.2⟩

/-- The positions come in increasing order, each once. -/
theorem positions_pairwise : (positions p start stop).Pairwise (· < ·) :=
  (List.pairwise_lt_range' ..).filter p

/-- Nothing is left. -/
theorem positions_eq_nil (h : ∀ o, start ≤ o → o < stop → p o = false) :
    positions p start stop = [] := by
  rw [List.eq_nil_iff_forall_not_mem]
  intro o ho
  obtain ⟨hle, hlt, hp⟩ := mem_positions.mp ho
  simp [h o hle hlt] at hp

/-- Two sections that meet give the positions of both together. -/
theorem positions_append {mid : Nat} (h : start ≤ mid) (h' : mid ≤ stop) :
    positions p start stop = positions p start mid ++ positions p mid stop := by
  have hsplit : stop - start = (mid - start) + (stop - mid) := by omega
  have hmid : start + (mid - start) = mid := by omega
  rw [positions, hsplit, ← List.range'_append_1, List.filter_append, hmid, positions, positions]

/-- The least position after `o`. -/
theorem find?_positions {o : Nat} (h : start ≤ o + 1) (h' : o + 1 ≤ stop) :
    (positions p start stop).find? (fun x => o < x) = (positions p (o + 1) stop).head? := by
  have hbelow : (positions p start (o + 1)).find? (fun x => decide (o < x)) = none := by
    rw [List.find?_eq_none]
    intro x hx
    have hlt := (mem_positions.mp hx).2.1
    simp only [decide_eq_true_eq]
    omega
  rw [positions_append h h', List.find?_append, hbelow, Option.none_or]
  cases hrest : positions p (o + 1) stop with
  | nil => rfl
  | cons x xs =>
      have hx : x ∈ positions p (o + 1) stop := by rw [hrest]; simp
      have hle := (mem_positions.mp hx).1
      rw [List.find?_cons_of_pos (by simpa using hle), List.head?_cons]

/-- The first position is the next one, and the rest follow it. -/
theorem IsNext.positions_eq {r : Nat} (h : IsNext p start stop r) :
    positions p start stop = r :: positions p (r + 1) stop := by
  obtain ⟨hle, hlt, hp, hfirst⟩ := h
  have hsplit : stop - start = (r - start) + ((stop - (r + 1)) + 1) := by omega
  have hskip : positions p start r = [] := positions_eq_nil hfirst
  have hr : start + (r - start) = r := by omega
  rw [positions, hsplit, ← List.range'_append_1, List.filter_append, hr, List.range'_succ,
    List.filter_cons_of_pos hp]
  rw [positions] at hskip
  rw [hskip, List.nil_append, positions]

/-- The first position in the list is the next one. -/
theorem isNext_of_positions {r : Nat} {rest : List Nat} (h : positions p start stop = r :: rest) :
    IsNext p start stop r := by
  have hmem : r ∈ positions p start stop := by rw [h]; simp
  obtain ⟨hle, hlt, hp⟩ := mem_positions.mp hmem
  refine ⟨hle, hlt, hp, ?_⟩
  intro o ho hor
  by_contra hset
  have hother : o ∈ positions p start stop :=
    mem_positions.mpr ⟨ho, by omega, by simpa using hset⟩
  -- all other positions come later
  have hsorted : (positions p start stop).Pairwise (· < ·) := positions_pairwise
  rw [h] at hsorted hother
  rcases List.mem_cons.mp hother with heq | hrest
  · omega
  · have hlater := List.rel_of_pairwise_cons hsorted hrest
    omega

end Next

end MyTestFiles.Lib
