import MyTestFiles.Bitlist.Vector
import MyTestFiles.Proofs.Bitlist.Mutators

/-!
# `MyTestFiles.Proofs.Bitlist.Vector`: the cells of a vector overlap

`bitlist_alloc_vect` asks for the states and the words of all cells, but `bl+i` is behind the
states of the cells before and not behind their words. The cells stay in the block
(`allocVect_spec`): the states follow each other, and the words of a cell are the states of
the next ones. So a list has the size of the next cell for its first word, which is not zero,
and a call of `bitlist_set` or `bitlist_clear` for its first bit changes that size
(`not_cellsEmpty`, `not_cellsIndependent`). A vector of one cell has neither problem
(`vectLaw_iff`).

The block of a vector is a list of words, and a cell is the words from a place on: five for the
state and the others for the bits. `loadCell` and `storeCell` are the two views of it, so an
operation on a cell is one on the block (`onCell`).
-/

set_option autoImplicit false

namespace MyTestFiles.Proofs.Bitlist

open MyTestFiles.Lib
open MyTestFiles.Bitlist

/-! ### Places in the block -/

section Cells
variable {front : List Elem} {i : Nat}

/-- The list behind the first `i` cells. -/
theorem loadCell_append (hfront : front.length = cellElems * i)
    (maxElems maxBits baseBit lastElem lastBit : Elem) (bits : List Elem) :
    loadCell (front ++ maxElems :: maxBits :: baseBit :: lastElem :: lastBit :: bits) i
      = some ⟨⟨maxElems.toNat, maxBits.toNat, baseBit.toNat, lastElem.toNat, lastBit.toNat⟩,
          bits⟩ := by
  unfold loadCell
  rw [← hfront, List.drop_left]

/-- What a store to a cell writes, with the words before it given. -/
theorem storeCell_append (hfront : front.length = cellElems * i) (rest : List Elem)
    (bl : BitlistT) :
    storeCell (front ++ rest) i bl = front ++ (stateWords bl.state ++ bl.bits) := by
  rw [storeCell, ← hfront, List.take_left]

/-- An operation on a cell loads it and stores the result. -/
theorem onCell_of_load {f : BitlistT → Option BitlistT} {memory : List Elem} {bl bl' : BitlistT}
    (hload : loadCell memory i = some bl) (hcall : f bl = some bl') :
    onCell f memory i = some (storeCell memory i bl') := by
  unfold onCell
  rw [Option.bind_eq_bind, bind_of_some hload]
  exact bind_of_some hcall

/-- The words of a state at the start of some memory. -/
theorem exists_state_words {rest : List Elem} (h : 5 ≤ rest.length) :
    ∃ w₁ w₂ w₃ w₄ w₅ bits, rest = w₁ :: w₂ :: w₃ :: w₄ :: w₅ :: bits := by
  match rest with
  | w₁ :: w₂ :: w₃ :: w₄ :: w₅ :: bits => exact ⟨w₁, w₂, w₃, w₄, w₅, bits, rfl⟩
  | [] | [_] | [_, _] | [_, _, _] | [_, _, _, _] =>
      simp only [List.length_cons, List.length_nil] at h
      omega

/-- The states of `k` cells, one behind the other. -/
def stateRow (state : BitlistState) (k : Nat) : List Elem :=
  (List.replicate k (stateWords state)).flatten

/-- The states of some cells start with that of the first. -/
theorem stateRow_cons (state : BitlistState) (k : Nat) :
    stateRow state (k + 1) = stateWords state ++ stateRow state k := rfl

/-- Each state has its words. -/
theorem length_stateRow (state : BitlistState) (k : Nat) :
    (stateRow state k).length = cellElems * k := by
  induction k with
  | zero => rfl
  | succ k ih =>
      rw [stateRow_cons, List.length_append, ih, Nat.mul_succ]
      show 5 + cellElems * k = cellElems * k + 5
      omega

/-- The states of two groups of cells. -/
theorem stateRow_add (state : BitlistState) (j k : Nat) :
    stateRow state (j + k) = stateRow state j ++ stateRow state k := by
  rw [stateRow, List.replicate_add, List.flatten_append, ← stateRow, ← stateRow]

/-- The states of some cells end with that of the last. -/
theorem stateRow_succ (state : BitlistState) (k : Nat) :
    stateRow state (k + 1) = stateRow state k ++ stateWords state := by
  rw [stateRow_add]
  rfl

end Cells

/-! ### The block after `bitlist_alloc_vect` -/

/-- The state of a new cell of `n` bits from `b` on. -/
def newState (n b : Nat) : BitlistState := ⟨(n + 31) / 32, n, b, 0, 0⟩

section Alloc
variable {malloc : Malloc} {n b c : Nat}

/-- The size of the block, which is no larger than an object can be. -/
theorem vectBytes_natCast (hn : n ≤ 2147483616) (hc : c < 2147483648) :
    vectBytes n c = 4 * (c * (5 + (n + 31) / 32)) ∧ vectBytes n c ≤ objectMax := by
  have hsize : (c : Int) * (20 + bitsToElems n * 4) = (4 * (c * (5 + (n + 31) / 32)) : Nat) := by
    rw [bitsToElems_natCast hn]
    push_cast
    ring
  -- the product stays far below the size of the address space
  have hbound : c * (5 + (n + 31) / 32) ≤ 2147483648 * 67108868 :=
    Nat.mul_le_mul hc.le (by omega)
  have hbytes : vectBytes n c = 4 * (c * (5 + (n + 31) / 32)) := by
    rw [vectBytes, hsize, uint64_of_range (by omega) (by omega)]
    exact Int.toNat_natCast _
  refine ⟨hbytes, ?_⟩
  rw [hbytes, objectMax]
  omega

/-- The macro wraps on the largest sizes, and the block is larger than an object can be. -/
theorem vectBytes_of_large (hn : 2147483616 < n) (hn' : n < 2147483648) (hc : 0 < c)
    (hc' : c < 2147483648) : objectMax < vectBytes n c := by
  -- the number of words that the macro gives
  obtain ⟨hlow, hhigh⟩ : -67108864 ≤ bitsToElems n ∧ bitsToElems n ≤ -67108863 := by
    have hsum : int32 (int32 ((n : Int) + 32) - 1) = -(4294967296 - ((n : Int) + 31)) := by
      rw [int32_int32_sub]
      simp only [int32]
      omega
    simp only [bitsToElems, bitsPerElem, hsum]
    rw [Int.neg_tdiv, Int.tdiv_eq_ediv_of_nonneg (by omega), int32_of_range] <;> omega
  have hlower : (2147483648 : Int) * (-268435436) ≤ c * (20 + bitsToElems n * 4) := by
    have hstep : (c : Int) * (-268435436) ≤ c * (20 + bitsToElems n * 4) :=
      mul_le_mul_of_nonneg_left (by omega) (by omega)
    omega
  have hupper : (c : Int) * (20 + bitsToElems n * 4) < 0 :=
    mul_neg_of_pos_of_neg (by omega) (by omega)
  rw [vectBytes, uint64, objectMax]
  omega

/-- What the loop has made of the block: the states of the first `i` cells, and behind them
the words of the last one. -/
def Cleared (n b c i : Nat) (memory : List Elem) : Prop :=
  ∃ rest, memory = stateRow (newState n b) i ++ rest ∧
    rest.length + cellElems * i = c * (5 + (n + 31) / 32) ∧
    (0 < i → ∀ o < n, bitAt rest o = false)

/-- One pass of the loop. -/
theorem Cleared.step (hn : n ≤ 2147483616) (hb : b < 2147483648) {i : Nat} (hi : i < c)
    {memory : List Elem} (h : Cleared n b c i memory) :
    ∃ memory', onCell (fun bl => bitlistClearall bl n b) memory i = some memory' ∧
      Cleared n b c (i + 1) memory' := by
  obtain ⟨rest, rfl, hlen, -⟩ := h
  -- the cell has room for its state and its words
  have hroom : 5 + (n + 31) / 32 ≤ rest.length := by
    have hwords : 1 * ((n + 31) / 32) ≤ c * ((n + 31) / 32) := Nat.mul_le_mul_right _ (by omega)
    rw [Nat.mul_add] at hlen
    simp only [cellElems] at hlen
    omega
  obtain ⟨w₁, w₂, w₃, w₄, w₅, bits, rfl⟩ := exists_state_words (by omega : 5 ≤ rest.length)
  simp only [List.length_cons] at hlen hroom
  have hload := loadCell_append (length_stateRow (newState n b) i) w₁ w₂ w₃ w₄ w₅ bits
  have hclear := @clearall_eq n b ⟨⟨w₁.toNat, w₂.toNat, w₃.toNat, w₄.toNat, w₅.toNat⟩, bits⟩
    hn hb (by show (n + 31) / 32 ≤ bits.length; omega)
  have hcall := @onCell_of_load i (fun bl => bitlistClearall bl n b) _ _ _ hload hclear
  rw [storeCell_append (length_stateRow (newState n b) i)] at hcall
  refine ⟨_, hcall, fill bits 0 ((n + 31) / 32) 0, ?_, ?_, ?_⟩
  · rw [stateRow_succ, List.append_assoc]
    rfl
  · rw [length_fill (by omega), ← hlen]
    simp only [cellElems]
    omega
  · intro _ o ho
    rw [bitAt_fill (by omega), if_pos (by omega)]
    exact BitVec.getLsbD_zero

/-- After `bitlist_alloc_vect`, the states of all cells are in the block, one behind the
other, and behind them are the words of the last cell. -/
theorem allocVect_spec (hn : n ≤ 2147483616) (hb : b < 2147483648) (hc : 0 < c)
    (hc' : c < 2147483648) {block : List.Vector Elem (c * (5 + (n + 31) / 32))}
    (hmalloc : malloc (c * (5 + (n + 31) / 32)) = some block) :
    ∃ rest, bitlistAllocVect malloc n b c = some (some (stateRow (newState n b) c ++ rest)) ∧
      (n + 31) / 32 ≤ rest.length ∧ ∀ o < n, bitAt rest o = false := by
  obtain ⟨hbytes, hmax⟩ := vectBytes_natCast hn hc'
  have hwords : vectBytes n c / 4 = c * (5 + (n + 31) / 32) := by
    rw [hbytes]
    omega
  -- nothing is known of the block before the loop
  have hstart : Cleared n b c 0 block.toList := by
    refine ⟨block.toList, rfl, ?_, fun hpos => absurd hpos (lt_irrefl 0)⟩
    rw [List.Vector.toList_length]
    rfl
  obtain ⟨memory, hloop, rest, rfl, hlen, hclear⟩ :=
    foldlM_range_rule (Cleared n b c) (fun i _ hi h => h.step hn hb hi) hstart
  refine ⟨rest, ?_, ?_, hclear hc⟩
  · have hfound : (malloc (vectBytes n c / 4)).map List.Vector.toList = some block.toList := by
      rw [hwords, hmalloc, Option.map_some]
    unfold bitlistAllocVect
    rw [if_neg (Nat.not_lt.mpr hmax), hfound]
    dsimp only
    rw [Int.toNat_natCast, hloop, Option.map_some]
  · -- the words of the last cell are what is left
    have hmul : 1 * ((n + 31) / 32) ≤ c * ((n + 31) / 32) := Nat.mul_le_mul_right _ hc
    rw [Nat.mul_add] at hlen
    simp only [cellElems] at hlen
    omega

/-- Without a block there is no vector. -/
theorem allocVect_null (hn : n < 2147483648) (hc : 0 < c) (hc' : c < 2147483648)
    (hnull : 2147483616 < n ∨ malloc (c * (5 + (n + 31) / 32)) = none) :
    bitlistAllocVect malloc n b c = some none := by
  unfold bitlistAllocVect
  by_cases hlarge : 2147483616 < n
  · rw [if_pos (vectBytes_of_large hlarge hn hc hc')]
  · obtain ⟨hbytes, hmax⟩ := vectBytes_natCast (by omega : n ≤ 2147483616) hc'
    have hwords : vectBytes n c / 4 = c * (5 + (n + 31) / 32) := by
      rw [hbytes]
      omega
    have hfound : (malloc (vectBytes n c / 4)).map List.Vector.toList = none := by
      rw [hwords, hnull.resolve_left hlarge, Option.map_none]
    rw [if_neg (Nat.not_lt.mpr hmax), hfound]

end Alloc

/-- One pass of the loop of `bitlist_free_vect`. -/
theorem onCell_free (n b i k : Nat) (rest : List Elem) :
    onCell (fun bl => some { bl with state := ⟨0, 0, 0, 0, 0⟩ })
        (stateRow ⟨0, 0, 0, 0, 0⟩ i ++ (stateRow (newState n b) (k + 1) ++ rest)) i
      = some (stateRow ⟨0, 0, 0, 0, 0⟩ (i + 1) ++ (stateRow (newState n b) k ++ rest)) := by
  have hload := loadCell_append (length_stateRow ⟨0, 0, 0, 0, 0⟩ i)
    (BitVec.ofNat 32 ((n + 31) / 32)) (BitVec.ofNat 32 n) (BitVec.ofNat 32 b) (BitVec.ofNat 32 0)
    (BitVec.ofNat 32 0) (stateRow (newState n b) k ++ rest)
  rw [stateRow_cons, stateRow_succ, List.append_assoc, List.append_assoc,
    ← storeCell_append (length_stateRow ⟨0, 0, 0, 0, 0⟩ i) _
      ⟨⟨0, 0, 0, 0, 0⟩, stateRow (newState n b) k ++ rest⟩]
  exact onCell_of_load hload rfl

/-- `bitlist_free_vect` finds the states where `bitlist_alloc_vect` has put them. -/
theorem freeVect_spec (n b c : Nat) (rest : List Elem) :
    bitlistFreeVect (stateRow (newState n b) c ++ rest) c
      = some (stateRow ⟨0, 0, 0, 0, 0⟩ c ++ rest) := by
  have hpass : ∀ i < c, onCell (fun bl => some { bl with state := ⟨0, 0, 0, 0, 0⟩ })
      (stateRow ⟨0, 0, 0, 0, 0⟩ i ++ (stateRow (newState n b) (c - i) ++ rest)) i
        = some (stateRow ⟨0, 0, 0, 0, 0⟩ (i + 1)
          ++ (stateRow (newState n b) (c - (i + 1)) ++ rest)) := by
    intro i hi
    obtain ⟨k, hk⟩ : ∃ k, c - i = k + 1 := ⟨c - i - 1, by omega⟩
    have hk' : c - (i + 1) = k := by omega
    rw [hk, hk']
    exact onCell_free n b i k rest
  have hrun := foldlM_range_eq
    (fun i => stateRow ⟨0, 0, 0, 0, 0⟩ i ++ (stateRow (newState n b) (c - i) ++ rest)) hpass
  rw [Nat.sub_self] at hrun
  exact hrun

/-! ### The law of a vector -/

/-- Every cell is an empty list of `n` bits from `b` on, and its words are in the block. -/
def CellsEmpty (n b c : Nat) (memory : List Elem) : Prop :=
  ∀ i < c, ∃ bl, loadCell memory i = some bl ∧ WellFormed bl ∧ bl.state.maxBits = n ∧
    bl.state.baseBit = b ∧ setPositions bl = []

/-- A call of `bitlist_set` or `bitlist_clear` on a cell. -/
structure CellCall where
  cell : Nat
  set : Bool
  bit : Int

/-- The call is for a position of a cell. -/
def CellCall.Valid (n b c : Nat) (call : CellCall) : Prop :=
  call.cell < c ∧ b ≤ call.bit ∧ call.bit < b + n ∧ call.bit ≤ intMax

/-- The operation of a call on its cell. -/
def cellUpdate (set : Bool) (bl : BitlistT) (bit : Int) : Option BitlistT :=
  if set then bitlistSet bl bit else bitlistClear bl bit

/-- A call on the block. -/
def cellStep (memory : List Elem) (call : CellCall) : Option (List Elem) :=
  onCell (fun bl => cellUpdate call.set bl call.bit) memory call.cell

/-- The state fields and the bits of a cell are the same. -/
def SameCell (n i : Nat) (memory memory' : List Elem) : Prop :=
  ∃ bl bl', loadCell memory i = some bl ∧ loadCell memory' i = some bl' ∧ bl'.state = bl.state ∧
    ∀ o < n, bitAt bl'.bits o = bitAt bl.bits o

/-- After any calls, the next one changes no other cell. -/
def CellsIndependent (n b c : Nat) (memory : List Elem) : Prop :=
  ∀ (calls : List CellCall) (memory' : List Elem), (∀ call ∈ calls, call.Valid n b c) →
    calls.foldlM cellStep memory = some memory' →
    ∀ (call : CellCall) (memory'' : List Elem), call.Valid n b c →
      cellStep memory' call = some memory'' →
      ∀ i < c, i ≠ call.cell → SameCell n i memory' memory''

/-- `bitlist_alloc_vect` does not fault, and the vector has the law, unless there is none. -/
def VectLaw (malloc : Malloc) (n b c : Nat) : Prop :=
  ∃ result, bitlistAllocVect malloc n b c = some result ∧
    ∀ memory, result = some memory → CellsEmpty n b c memory ∧ CellsIndependent n b c memory

section Law
variable {n b c : Nat} {rest : List Elem}

/-- A cell among the states of the others. -/
theorem loadCell_row (hn : n ≤ 2147483616) (hb : b < 2147483648) (i k : Nat) :
    loadCell (stateRow (newState n b) (i + 1 + k) ++ rest) i
      = some ⟨newState n b, stateRow (newState n b) k ++ rest⟩ := by
  have hword : ∀ x < 4294967296, (BitVec.ofNat 32 x).toNat = x := by
    intro x hx
    rw [BitVec.toNat_ofNat]
    exact Nat.mod_eq_of_lt hx
  have hload := loadCell_append (length_stateRow (newState n b) i)
    (BitVec.ofNat 32 ((n + 31) / 32)) (BitVec.ofNat 32 n) (BitVec.ofNat 32 b) (BitVec.ofNat 32 0)
    (BitVec.ofNat 32 0) (stateRow (newState n b) k ++ rest)
  rw [hword _ (by omega), hword _ (by omega), hword _ (by omega), hword 0 (by omega)] at hload
  rw [stateRow_add, stateRow_succ, List.append_assoc, List.append_assoc]
  exact hload

/-- The words of a cell among the others have room in the block. -/
theorem wellFormed_row (hn : n ≤ 2147483616) (hrest : (n + 31) / 32 ≤ rest.length) (k : Nat) :
    WellFormed ⟨newState n b, stateRow (newState n b) k ++ rest⟩ := by
  refine ⟨rfl, ?_, ?_⟩
  · show (n + 31) / 32 ≤ (stateRow (newState n b) k ++ rest).length
    rw [List.length_append]
    omega
  · show n ≤ 2147483648
    omega

/-- The first word of a cell before another one is the size of that one in words. -/
theorem stateRow_words (k : Nat) :
    stateRow (newState n b) (k + 1) ++ rest
      = BitVec.ofNat 32 ((n + 31) / 32) :: ((stateWords (newState n b)).tail
          ++ (stateRow (newState n b) k ++ rest)) := by
  rw [stateRow_cons, List.append_assoc]
  rfl

/-- The size of a cell has a bit that is a bit of the cell before. -/
theorem exists_bit_of_size (hn : 0 < n) (hn' : n ≤ 2147483616) :
    ∃ o < n, o < 32 ∧ (BitVec.ofNat 32 ((n + 31) / 32)).getLsbD o = true := by
  obtain ⟨o, ho⟩ := Nat.exists_testBit_of_ne_zero (by omega : (n + 31) / 32 ≠ 0)
  have hpow : 2 ^ o ≤ (n + 31) / 32 := Nat.ge_two_pow_of_testBit ho
  have hlt : o < 2 ^ o := Nat.lt_two_pow_self
  have hsmall : o < 32 := by
    by_contra hlarge
    have hmono : 2 ^ 32 ≤ 2 ^ o := Nat.pow_le_pow_right (by decide) (by omega)
    omega
  refine ⟨o, by omega, hsmall, ?_⟩
  rw [BitVec.getLsbD_ofNat, ho, Bool.and_true, decide_eq_true hsmall]

/-- A cell before another one is not empty. -/
theorem not_cellsEmpty (hn : 0 < n) (hn' : n ≤ 2147483616) (hb : b < 2147483648)
    (hc : 2 ≤ c) : ¬CellsEmpty n b c (stateRow (newState n b) c ++ rest) := by
  obtain ⟨k, rfl⟩ : ∃ k, c = 0 + 1 + (k + 1) := ⟨c - 2, by omega⟩
  intro hempty
  obtain ⟨bl, hload, hwf, -, -, hnone⟩ := hempty 0 (by omega)
  rw [loadCell_row hn' hb] at hload
  cases hload
  -- the size of the next cell, as a word of this one, has a bit within the list
  obtain ⟨o, ho, ho', hbit⟩ := exists_bit_of_size hn hn'
  have hword : bitAt (stateRow (newState n b) (k + 1) ++ rest) o = true := by
    have hdiv : o / 32 = 0 := by omega
    have hmod : o % 32 = o := Nat.mod_eq_of_lt ho'
    rw [stateRow_words, ← hbit]
    nth_rewrite 2 [← hmod]
    apply bitAt_of_getElem?
    rw [hdiv, List.getElem?_cons_zero]
  rw [setPositions_eq hwf, List.map_eq_nil_iff] at hnone
  have hmem : o ∈ positions (bitAt (stateRow (newState n b) (k + 1) ++ rest)) 0 n :=
    mem_positions.mpr ⟨Nat.zero_le o, ho, hword⟩
  have hno : positions (bitAt (stateRow (newState n b) (k + 1) ++ rest)) 0 n = [] := hnone
  rw [hno] at hmem
  cases hmem

/-- A call for the first bit of a list. -/
theorem bitlistUpdate_base {f : Elem → Elem → Elem} {state : BitlistState} {x : Elem}
    {bits : List Elem} (hbits : 0 < state.maxBits) :
    bitlistUpdate f ⟨state, x :: bits⟩ state.baseBit = some ⟨state, f x 1 :: bits⟩ := by
  have hoffset : int32 ((state.baseBit : Int) - state.baseBit) = 0 := by
    rw [Int.sub_self]
    rfl
  have hvalid : bitlistValidbit ⟨state, x :: bits⟩ 0 = true := by
    rw [bitlistValidbit_iff (by omega) (by omega)]
    show 0 ≤ (0 : Int) ∧ (0 : Int) < state.maxBits
    omega
  unfold bitlistUpdate
  dsimp only
  rw [hoffset, if_pos hvalid]
  rfl

/-- One of the two calls changes the word. -/
theorem exists_cellUpdate_ne {state : BitlistState} (hbits : 0 < state.maxBits) (x : Elem) :
    ∃ set y, y ≠ x ∧ ∀ bits,
      cellUpdate set ⟨state, x :: bits⟩ state.baseBit = some ⟨state, y :: bits⟩ := by
  -- the call that makes the first bit of the word the other one
  cases hbit : x.getLsbD 0 with
  | false =>
      refine ⟨true, x ||| 1, ?_, fun bits => bitlistUpdate_base hbits⟩
      intro heq
      have hset : (x ||| 1).getLsbD 0 = true := by
        rw [BitVec.getLsbD_or]
        exact Bool.or_true _
      rw [heq, hbit] at hset
      cases hset
  | true =>
      have hupdate : ∀ bits, cellUpdate false ⟨state, x :: bits⟩ state.baseBit
          = some ⟨state, (x &&& ~~~1) :: bits⟩ := by
        intro bits
        show bitlistUpdate (fun elem mask => elem &&& ~~~mask) _ _ = _
        exact bitlistUpdate_base hbits
      refine ⟨false, x &&& ~~~1, ?_, hupdate⟩
      intro heq
      have hclear : (x &&& ~~~1).getLsbD 0 = false := by
        rw [BitVec.getLsbD_and]
        exact Bool.and_false _
      rw [heq, hbit] at hclear
      cases hclear

/-- `bitlist_set` or `bitlist_clear` for the first bit of a cell changes the size of the
next one. -/
theorem not_cellsIndependent (hn : 0 < n) (hn' : n ≤ 2147483616) (hb : b < 2147483648)
    (hc : 2 ≤ c) : ¬CellsIndependent n b c (stateRow (newState n b) c ++ rest) := by
  obtain ⟨k, rfl⟩ : ∃ k, c = 0 + 1 + (k + 1) := ⟨c - 2, by omega⟩
  intro hindependent
  obtain ⟨set, y, hne, hupdate⟩ :=
    @exists_cellUpdate_ne (newState n b) hn (BitVec.ofNat 32 ((n + 31) / 32))
  have hvalid : CellCall.Valid n b (0 + 1 + (k + 1)) ⟨0, set, b⟩ := by
    refine ⟨Nat.succ_pos _, le_refl (b : Int), ?_, ?_⟩
    · show (b : Int) < b + n
      omega
    · show (b : Int) ≤ 2147483647
      omega
  -- the call on the first cell writes to the first word of the second one
  have hload := @loadCell_row n b rest hn' hb 0 (k + 1)
  rw [stateRow_words] at hload
  have hcall := @onCell_of_load 0 (fun bl => cellUpdate set bl b) _ _ _ hload (hupdate _)
  obtain ⟨bl, bl', hbefore, hafter, hstate, -⟩ :=
    hindependent [] _ (by simp) rfl ⟨0, set, b⟩ _ hvalid hcall 1 (by omega) Nat.one_ne_zero
  have hrow := @loadCell_row n b rest hn' hb 1 k
  have hsame : 0 + 1 + (k + 1) = 1 + 1 + k := by omega
  rw [hsame, hrow] at hbefore
  cases hbefore
  have hnext := @loadCell_append (stateWords (newState n b)) 1 rfl y (BitVec.ofNat 32 n)
    (BitVec.ofNat 32 b) (BitVec.ofNat 32 0) (BitVec.ofNat 32 0) (stateRow (newState n b) k ++ rest)
  have hsize : bl'.state.maxElems = y.toNat := by
    have heq := hafter.symm.trans hnext
    rw [Option.some.inj heq]
  rw [hstate] at hsize
  apply hne
  apply BitVec.eq_of_toNat_eq
  rw [← hsize, BitVec.toNat_ofNat]
  show (n + 31) / 32 = (n + 31) / 32 % 2 ^ 32
  omega

/-- A vector of one cell. -/
theorem vectLaw_one (hn' : n ≤ 2147483616) (hb : b < 2147483648)
    (hrest : (n + 31) / 32 ≤ rest.length) (hclear : ∀ o < n, bitAt rest o = false) :
    CellsEmpty n b 1 (stateRow (newState n b) 1 ++ rest) ∧
      CellsIndependent n b 1 (stateRow (newState n b) 1 ++ rest) := by
  constructor
  · intro i hi
    obtain rfl : i = 0 := by omega
    have hload := @loadCell_row n b rest hn' hb 0 0
    have hwf := @wellFormed_row n b rest hn' hrest 0
    refine ⟨_, hload, hwf, rfl, rfl, ?_⟩
    rw [setPositions_eq hwf, List.map_eq_nil_iff]
    exact positions_eq_nil fun o _ ho => hclear o ho
  · intro calls memory' _ _ call memory'' hvalid _ i hi hne
    -- there is no other cell
    have hcell := hvalid.1
    omega

end Law

/-- The law holds exactly for a single cell, or where there is no block for the vector. -/
theorem vectLaw_iff {malloc : Malloc} {n b c : Nat} (hn : 0 < n) (hn' : n < 2147483648)
    (hb : b < 2147483648) (hc : 0 < c) (hc' : c < 2147483648) :
    VectLaw malloc n b c ↔
      c = 1 ∨ 2147483616 < n ∨ malloc (c * (5 + (n + 31) / 32)) = none := by
  by_cases hnull : 2147483616 < n ∨ malloc (c * (5 + (n + 31) / 32)) = none
  · have hcall := allocVect_null (b := b) hn' hc hc' hnull
    constructor
    · intro _
      exact Or.inr hnull
    · intro _
      exact ⟨none, hcall, by simp⟩
  · have hsmall : n ≤ 2147483616 := by omega
    obtain ⟨block, hmalloc⟩ := Option.ne_none_iff_exists'.mp fun h => hnull (Or.inr h)
    -- there is a vector
    obtain ⟨rest, hcall, hrest, hclear⟩ := allocVect_spec hsmall hb hc hc' hmalloc
    constructor
    · -- two cells would overlap
      intro hlaw
      obtain ⟨result, hresult, hcells⟩ := hlaw
      rw [hcall, Option.some.injEq] at hresult
      by_contra hmany
      have hempty := (hcells _ hresult.symm).1
      exact not_cellsEmpty hn hsmall hb (by omega) hempty
    · intro hone
      obtain rfl : c = 1 := by
        rcases hone with rfl | h
        · rfl
        · exact absurd h hnull
      refine ⟨_, hcall, ?_⟩
      intro memory hmemory
      rw [Option.some.injEq] at hmemory
      rw [← hmemory]
      exact vectLaw_one hsmall hb hrest hclear

/-- A single cell, in a block of zeros. -/
theorem vectLaw_iff_one_cell : VectLaw (fun k => some (List.Vector.replicate k 0)) 40 5 1 :=
  (vectLaw_iff (by decide) (by decide) (by decide) (by decide) (by decide)).mpr (Or.inl rfl)

/-- Three cells of 40 bits overlap. -/
theorem not_vectLaw : ¬VectLaw (fun k => some (List.Vector.replicate k 0)) 40 5 3 := by
  intro hlaw
  obtain ⟨result, hresult, hcells⟩ := hlaw
  obtain ⟨rest, hcall, -, -⟩ := @allocVect_spec (fun k => some (List.Vector.replicate k 0)) 40 5 3
    (by decide) (by decide) (by decide) (by decide) _ rfl
  obtain rfl : some (stateRow (newState 40 5) 3 ++ rest) = result :=
    Option.some.inj (hcall.symm.trans hresult)
  exact not_cellsIndependent (by decide) (by decide) (by decide) (by decide) (hcells _ rfl).2

end MyTestFiles.Proofs.Bitlist
