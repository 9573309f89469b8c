import MyTestFiles.Bitlist.Text
import MyTestFiles.Proofs.Bitlist.Basic

/-!
# `MyTestFiles.Proofs.Bitlist.Mutators`: what the operations on one list do to its bits

The geometry of a list is its number of bits and its first bit. `HasGeometry n b` says that
a list has the geometry and exactly the words that it needs. Each operation keeps it, and a
lemma says what becomes of each bit, padding included: `update_spec` for the operations on
one bit, `setall_spec`, `clearall_spec` and `fillContiguous_spec` for those on many, and
`fromString_closed` for the parser, which changes a list with `bitlist_set` only.

Positions are `int`s and offsets natural numbers. A position outside the list has no offset, and
every operation on one bit then leaves the list alone, so the lemmas need no bound on the
position. The bounds that they do need are those of the list, and `HasGeometry` has them.

The parser is closed under any property that `bitlist_set` keeps (`P`), so a fact about single
bits holds after a call of the parser whatever it read, and no lemma looks into the text.
-/

set_option autoImplicit false

namespace MyTestFiles.Proofs.Bitlist

open MyTestFiles.Lib
open MyTestFiles.Bitlist

/-! ### Geometry -/

/-- A list of `n` bits from `b` on. Sizes above 2147483616 have no list. -/
structure HasGeometry (n b : Nat) (bl : BitlistT) : Prop where
  maxElems : bl.state.maxElems = (n + 31) / 32
  maxBits : bl.state.maxBits = n
  baseBit : bl.state.baseBit = b
  length : bl.bits.length = (n + 31) / 32
  le_max : n ≤ 2147483616

section Geometry
variable {n b : Nat} {bl : BitlistT}

/-- A list with a geometry is well formed. -/
theorem HasGeometry.wellFormed (h : HasGeometry n b bl) : WellFormed bl := by
  have hmax := h.le_max
  exact ⟨by rw [h.maxElems, h.maxBits], by rw [h.maxElems, h.length], by rw [h.maxBits]; omega⟩

/-- The same list with other words. -/
theorem HasGeometry.withBits (h : HasGeometry n b bl) {bits : List Elem}
    (hlen : bits.length = bl.bits.length) : HasGeometry n b { bl with bits := bits } :=
  ⟨h.maxElems, h.maxBits, h.baseBit, hlen.trans h.length, h.le_max⟩

/-- The number of words that a size needs. -/
theorem bitsToElems_natCast (h : n ≤ 2147483616) : bitsToElems n = ((n + 31) / 32 : Nat) := by
  have hsum : int32 (int32 ((n : Int) + 32) - 1) = (n : Int) + 31 := by
    rw [int32_int32_sub, int32_of_range] <;> omega
  simp only [bitsToElems, bitsPerElem, hsum]
  rw [Int.tdiv_eq_ediv_of_nonneg (by omega), int32_of_range] <;> omega

/-- The macro overflows on the largest sizes. -/
theorem bitsToElems_of_large (h : 2147483616 < n) (h' : n < 2147483648) : bitsToElems n < 0 := by
  have hsum : int32 (int32 ((n : Int) + 32) - 1) = (n : Int) + 31 - 4294967296 := by
    rw [int32_int32_sub]
    simp only [int32]
    omega
  have hneg : (n : Int) + 31 - 4294967296 = -(4294967296 - ((n : Int) + 31)) := by omega
  simp only [bitsToElems, bitsPerElem, hsum]
  rw [hneg, Int.neg_tdiv, Int.tdiv_eq_ediv_of_nonneg (by omega), int32_of_range] <;> omega

/-- The macro sees an `int` only. -/
theorem bitsToElems_int32 (bits : Int) : bitsToElems (int32 bits) = bitsToElems bits := by
  simp only [bitsToElems, bitsPerElem, int32_int32_add, int32_int32_sub]

/-- The macro on a whole number of words. It rounds a negative number up. -/
theorem bitsToElems_of_whole {bits : Int} (hmod : bits % 32 = 0) :
    bitsToElems bits = if int32 bits < 0 then int32 bits / 32 + 1 else int32 bits / 32 := by
  have hlow := le_int32 bits
  have hhigh := int32_lt bits
  have hwhole : int32 bits % 32 = 0 := by
    simp only [int32]
    omega
  have hsum : int32 (int32 (int32 bits + 32) - 1) = int32 bits + 31 := by
    rw [int32_int32_sub, int32_of_range] <;> omega
  rw [← bitsToElems_int32]
  simp only [bitsToElems, bitsPerElem, hsum]
  by_cases hneg : int32 bits < 0
  · have hnum : int32 bits + 31 = -(-(int32 bits + 31)) := by omega
    rw [hnum, Int.neg_tdiv, Int.tdiv_eq_ediv_of_nonneg (by omega), int32_of_range, if_pos hneg]
      <;> omega
  · rw [Int.tdiv_eq_ediv_of_nonneg (by omega), int32_of_range, if_neg hneg] <;> omega

/-- `bitlist_test` at a valid position reads its bit. -/
theorem HasGeometry.test_of_offset (h : HasGeometry n b bl) {p : Int} {o : Nat}
    (ho : int32 (p - b) = o) (hlt : o < n) : bitlistTest bl p = some (bitAt bl.bits o) := by
  exact h.wellFormed.test_of_offset (by rw [h.baseBit, ho]) (by rwa [h.maxBits])

/-- Elsewhere `bitlist_test` answers FALSE. -/
theorem HasGeometry.test_of_invalid (h : HasGeometry n b bl) {p : Int}
    (hp : ¬(0 ≤ int32 (p - b) ∧ int32 (p - b) < n)) : bitlistTest bl p = some false := by
  have hinvalid : bitlistValidbit bl (int32 (p - bl.state.baseBit)) = false := by
    rw [← Bool.not_eq_true, bitlistValidbit_iff (le_int32 _) (int32_lt _), h.baseBit, h.maxBits]
    exact hp
  simp only [bitlistTest, hinvalid, Bool.not_false, if_true]

end Geometry

/-! ### One bit -/

section Update
variable {n b : Nat} {bl : BitlistT} {f : Elem → Elem → Elem}

/-- An update of one bit never faults: the bit of a valid position becomes `v`, and there is
no change for another position. -/
theorem update_spec (h : HasGeometry n b bl) (v : Bool)
    (hf : ∀ x : Elem, ∀ i < 32, ∀ j < 32,
      (f x (1#32 <<< i)).getLsbD j = if j = i then v else x.getLsbD j) (bit : Int) :
    ∃ bl', bitlistUpdate f bl bit = some bl' ∧ HasGeometry n b bl' ∧
      ∀ o, bitAt bl'.bits o = if int32 (bit - b) = o ∧ o < n then v else bitAt bl.bits o := by
  by_cases hvalid : bitlistValidbit bl (int32 (bit - bl.state.baseBit)) = true
  · obtain ⟨o, ho, hlt⟩ := exists_offset _ hvalid
    have hword := h.wellFormed.word_lt hlt
    have hlen : o / 32 < bl.bits.length := hword.trans_le h.wellFormed.room
    have hload : loadElem bl.bits (o / 32 : Nat) = some bl.bits[o / 32] := by
      rw [loadElem_natCast, List.getElem?_eq_getElem hlen]
    have hcall : bitlistUpdate f bl bit = some { bl with
        bits := bl.bits.set (o / 32) (f bl.bits[o / 32] (bitToMask o)) } := by
      simp only [bitlistUpdate]
      rw [if_pos hvalid]
      simp only [ho, bitToElem_natCast, hload, storeElem_natCast hlen, Option.bind_eq_bind,
        Option.bind_some]
    refine ⟨_, hcall, h.withBits (List.length_set ..), ?_⟩
    intro o'
    rw [h.maxBits] at hlt
    rw [h.baseBit] at ho
    rw [bitAt_set hlen, bitToMask, bitToBit_natCast, ho]
    -- within the word the mask selects the bit, and the other words stay
    by_cases hsame : o' / 32 = o / 32
    · have hbit : bitAt bl.bits o' = bl.bits[o / 32].getLsbD (o' % 32) := by
        rw [bitAt_of_getElem? (by rw [hsame]; exact List.getElem?_eq_getElem hlen)]
      have hiff : o' % 32 = o % 32 ↔ ((o : Int) = o' ∧ o' < n) := by omega
      rw [if_pos hsame, hf _ _ (Nat.mod_lt o (by omega)) _ (Nat.mod_lt o' (by omega)), hbit]
      simp only [hiff]
    · have hne : ¬((o : Int) = o' ∧ o' < n) := by
        intro heq
        exact hsame (by rw [Int.ofNat.inj heq.1])
      rw [if_neg hsame, if_neg hne]
  · refine ⟨bl, by rw [bitlistUpdate, if_neg hvalid], h, ?_⟩
    intro o
    have hne : ¬(int32 (bit - b) = o ∧ o < n) := by
      intro heq
      apply hvalid
      rw [h.baseBit, heq.1]
      exact bitlistValidbit_natCast h.wellFormed.maxBits_le (by rw [h.maxBits]; exact heq.2)
    rw [if_neg hne]

/-- `bitlist_set` sets the bit at the offset of its position, if there is one. -/
theorem set_spec (h : HasGeometry n b bl) (bit : Int) :
    ∃ bl', bitlistSet bl bit = some bl' ∧ HasGeometry n b bl' ∧
      ∀ o, bitAt bl'.bits o = if int32 (bit - b) = o ∧ o < n then true else bitAt bl.bits o := by
  refine update_spec h true ?_ bit
  intro x i hi j hj
  rw [BitVec.getLsbD_or, getLsbD_one_shiftLeft hi]
  by_cases heq : j = i <;> simp [heq]

/-- `bitlist_clear` clears the bit at the offset of its position, if there is one. -/
theorem clear_spec (h : HasGeometry n b bl) (bit : Int) :
    ∃ bl', bitlistClear bl bit = some bl' ∧ HasGeometry n b bl' ∧
      ∀ o, bitAt bl'.bits o = if int32 (bit - b) = o ∧ o < n then false else bitAt bl.bits o := by
  refine update_spec h false ?_ bit
  intro x i hi j hj
  rw [BitVec.getLsbD_and, BitVec.getLsbD_not, getLsbD_one_shiftLeft hi]
  by_cases heq : j = i <;> simp [heq, hj]

end Update

/-! ### Many bits -/

section Fill
variable {n b : Nat} {bl bl' : BitlistT}

/-- A `memset` of the first words. -/
theorem memsetElems_start {bits : List Elem} {k : Nat} (h : k ≤ bits.length) (x : Elem) :
    memsetElems bits 0 k x = some (fill bits 0 k x) := by
  simp [memsetElems, h]

/-- The state that a constructor computes, for a size and a base in range. -/
theorem freshState_natCast (hn : n ≤ 2147483616) (hb : b < 2147483648) :
    freshState n b = ⟨(n + 31) / 32, n, b, 0, 0⟩ := by
  simp only [freshState, bitsToElems_natCast hn]
  rw [uint32_natCast (by omega), uint32_natCast (by omega), uint32_natCast (by omega)]

/-- `bitlist_clearall` on any memory with the words that the size needs. -/
theorem clearall_eq (hn : n ≤ 2147483616) (hb : b < 2147483648)
    (hlen : (n + 31) / 32 ≤ bl.bits.length) :
    bitlistClearall bl n b
      = some ⟨⟨(n + 31) / 32, n, b, 0, 0⟩, fill bl.bits 0 ((n + 31) / 32) 0⟩ := by
  have hfill : memsetElems bl.bits 0 ((n + 31) / 32 : Nat) 0
      = some (fill bl.bits 0 ((n + 31) / 32) 0) := memsetElems_start hlen 0
  simp only [bitlistClearall, freshState_natCast hn hb, hfill]
  rfl

/-- After `bitlist_clearall`, on memory with no more words than the size needs. -/
theorem clearall_spec (hn : n ≤ 2147483616) (hb : b < 2147483648)
    (hlen : bl.bits.length = (n + 31) / 32) :
    ∃ bl', bitlistClearall bl n b = some bl' ∧ HasGeometry n b bl' ∧
      ∀ o, bitAt bl'.bits o = false := by
  refine ⟨_, clearall_eq hn hb hlen.ge, ?_, ?_⟩
  · exact ⟨rfl, rfl, rfl, by rw [length_fill (by omega), hlen], hn⟩
  · intro o
    rw [bitAt_fill (by omega)]
    split
    · exact BitVec.getLsbD_zero
    · exact bitAt_of_ge (by omega)

/-- The low `k` bits: `BIT_TO_MASK(bits) - 1`. -/
theorem getLsbD_lowMask {k : Nat} (hk : k < 32) (j : Nat) :
    ((1#32 <<< k) - 1).getLsbD j = decide (j < k) := by
  have hpow : 2 ^ k < 2 ^ 32 := Nat.pow_lt_pow_right (by omega) hk
  have hnat : ((1#32 <<< k) - 1).toNat = 2 ^ k - 1 := by
    have hpos : 0 < 2 ^ k := by positivity
    have hone : (1 : Elem).toNat = 1 := rfl
    rw [← BitVec.twoPow_eq, BitVec.toNat_sub, BitVec.toNat_twoPow, hone]
    omega
  rw [BitVec.getLsbD, hnat, Nat.testBit_two_pow_sub_one]

/-- After `bitlist_setall`, the bits of the list are set and its padding is clear. -/
theorem setall_spec (h : HasGeometry n b bl) (hb : b < 2147483648)
    (hcall : bitlistSetall bl n b = some bl') :
    HasGeometry n b bl' ∧ ∀ o, bitAt bl'.bits o = decide (o < n) := by
  have hn := h.le_max
  have hlen := h.length
  have hfill : memsetElems bl.bits 0 ((n + 31) / 32 : Nat) (~~~0)
      = some (fill bl.bits 0 ((n + 31) / 32) (~~~0)) := memsetElems_start (by omega) _
  have hflen : (fill bl.bits 0 ((n + 31) / 32) (~~~0)).length = bl.bits.length :=
    length_fill (by omega) _
  have hbit : ∀ o, bitAt (fill bl.bits 0 ((n + 31) / 32) (~~~0)) o
      = decide (o / 32 < (n + 31) / 32) := by
    intro o
    have hone : (~~~0 : Elem).getLsbD (o % 32) = true := by
      rw [BitVec.getLsbD_not]
      simp [Nat.mod_lt o (by omega : 32 > 0)]
    rw [bitAt_fill (by omega), hone]
    by_cases hin : o / 32 < (n + 31) / 32
    · simp [hin]
    · rw [if_neg (by omega), bitAt_of_ge (by omega), decide_eq_false hin]
  simp only [bitlistSetall, freshState_natCast hn hb, hfill, bitToBit_natCast,
    Option.bind_eq_bind, Option.bind_some] at hcall
  -- From here on only the bits of the filled words matter.
  generalize fill bl.bits 0 ((n + 31) / 32) (~~~0) = words at hcall hflen hbit
  by_cases hpart : n % 32 = 0
  · rw [if_neg (by simpa using hpart)] at hcall
    cases hcall
    refine ⟨⟨rfl, rfl, rfl, by rw [hflen, hlen], hn⟩, ?_⟩
    intro o
    rw [hbit, decide_eq_decide]
    omega
  · -- the last word is only partly used
    have hlast : (uint32 ((((n + 31) / 32 : Nat) : Int) - 1) : Int) = (n / 32 : Nat) := by
      rw [uint32_of_range] <;> omega
    have hlt : n / 32 < words.length := by omega
    have hword : loadElem words (n / 32 : Nat) = some words[n / 32] := by
      rw [loadElem_natCast, List.getElem?_eq_getElem hlt]
    rw [if_pos (by simpa using hpart)] at hcall
    simp only [hlast, hword, storeElem_natCast hlt, Option.bind_some, Option.some.injEq] at hcall
    subst hcall
    refine ⟨⟨rfl, rfl, rfl, by rw [List.length_set, hflen, hlen], hn⟩, ?_⟩
    intro o
    rw [bitAt_set hlt]
    by_cases hsame : o / 32 = n / 32
    · have hold : words[n / 32].getLsbD (o % 32) = true := by
        have hread := hbit o
        rw [bitAt_of_getElem? (by rw [hsame]; exact List.getElem?_eq_getElem hlt)] at hread
        rw [hread, decide_eq_true_eq]
        omega
      rw [if_pos hsame, BitVec.getLsbD_and, hold, bitToMask, bitToBit_natCast,
        getLsbD_lowMask (Nat.mod_lt n (by omega)), Bool.true_and, decide_eq_decide]
      omega
    · rw [if_neg hsame, hbit, decide_eq_decide]
      omega

/-- The two ends of a valid range. Their offsets determine the length. -/
theorem HasGeometry.exists_ends (h : HasGeometry n b bl) {bit bits : Int}
    (hrange : bitlistValidrange bl bit bits = true) :
    ∃ o last : Nat, int32 (bit - b) = o ∧ uint32 (bit - bl.state.baseBit) = o ∧ o < n ∧ last < n ∧
      int32 bits = (last : Int) + 1 - o := by
  have hmax := h.le_max
  obtain ⟨hfirst, hend⟩ := Bool.and_eq_true_iff.mp hrange
  obtain ⟨o, ho, holt⟩ := exists_offset _ hfirst
  obtain ⟨last, hlast, hlastlt⟩ := exists_offset _ hend
  rw [h.maxBits] at holt hlastlt
  have hstart : uint32 (bit - bl.state.baseBit) = o := by
    simp only [uint32, int32] at ho ⊢
    omega
  have hdiff : int32 bits = (last : Int) + 1 - o := by
    simp only [int32] at ho hlast ⊢
    omega
  rw [h.baseBit] at ho
  exact ⟨o, last, ho, hstart, holt, hlastlt, hdiff⟩

/-- The test for a whole number of words. -/
theorem tmod_bitsPerElem_eq_zero_iff {bits : Int} : bits.tmod bitsPerElem = 0 ↔ bits % 32 = 0 := by
  rw [bitsPerElem, ← Int.dvd_iff_tmod_eq_zero, Int.dvd_iff_emod_eq_zero]

/-- A block of a negative number of words, one word at least, between two valid ends. -/
def BackwardBlock (bl : BitlistT) (bit bits : Int) : Prop :=
  bitlistValidrange bl bit bits = true ∧ (bit - bl.state.baseBit) % 32 = 0 ∧ bits % 32 = 0 ∧
    int32 bits ≤ -64

/-- A fill faults on a backward block only. Otherwise it leaves the list alone, or fills a
block of words that lies in the list. -/
theorem fillContiguous_cases (h : HasGeometry n b bl) (x : Elem) (bit bits : Int) :
    (BackwardBlock bl bit bits ∧ bitlistFillContiguous x bl bit bits = none) ∨
    (¬BackwardBlock bl bit bits ∧ bitlistFillContiguous x bl bit bits = some bl) ∨
    (¬BackwardBlock bl bit bits ∧ ∃ i k : Nat, int32 (bit - b) = (32 * i : Nat) ∧
      int32 bits = (32 * k : Nat) ∧ 32 * (i + k) ≤ n ∧
      bitlistFillContiguous x bl bit bits = some { bl with bits := fill bl.bits i k x }) := by
  have hmax := h.le_max
  have hlen := h.length
  have hlow := le_int32 bits
  by_cases hrange : bitlistValidrange bl bit bits = true
  · obtain ⟨o, last, ho, hstart, holt, hlastlt, hdiff⟩ := h.exists_ends hrange
    have hmod : (bit - bl.state.baseBit) % 32 = 0 ↔ o % 32 = 0 := by
      simp only [uint32] at hstart
      omega
    have hcall : bitlistFillContiguous x bl bit bits
        = if o % 32 ≠ 0 then some bl
          else if bits.tmod bitsPerElem ≠ 0 then some bl
          else (memsetElems bl.bits (o / 32 : Nat) (bitsToElems bits) x).map
            fun words => { bl with bits := words } := by
      rw [bitlistFillContiguous, if_neg (by simpa using hrange), hstart, bitToElem_natCast]
      cases memsetElems bl.bits (o / 32 : Nat) (bitsToElems bits) x <;> rfl
    -- A start or a length that is not in whole words leaves the list alone.
    by_cases haligned : o % 32 = 0
    · by_cases hwhole : bits % 32 = 0
      · rw [if_neg (not_not.mpr haligned),
          if_neg (not_not.mpr (tmod_bitsPerElem_eq_zero_iff.mpr hwhole)),
          bitsToElems_of_whole hwhole] at hcall
        have hword : int32 bits % 32 = 0 := by
          simp only [int32]
          omega
        by_cases hback : int32 bits ≤ -64
        · -- the count is negative, and `memset` takes it for a huge size
          refine Or.inl ⟨⟨hrange, hmod.mpr haligned, hwhole, hback⟩, ?_⟩
          rw [hcall, if_pos (by omega), memsetElems, if_pos (by omega), Option.map_none]
        · refine Or.inr ?_
          have hnot : ¬BackwardBlock bl bit bits := fun hb => hback hb.2.2.2
          by_cases hneg : int32 bits < 0
          · -- the one negative length that rounds up to no word at all
            refine Or.inl ⟨hnot, ?_⟩
            have hzero : int32 bits / 32 + 1 = 0 := by omega
            rw [hcall, if_pos hneg, hzero, memsetElems, if_neg (by omega), if_pos (by omega),
              Option.map_some, Int.toNat_zero, fill_zero]
          · refine Or.inr ⟨hnot, o / 32, (int32 bits / 32).toNat, ?_, by omega, by omega, ?_⟩
            · rw [ho]
              omega
            · rw [hcall, if_neg hneg, memsetElems, if_neg (by omega), if_pos (by omega),
                Option.map_some, Int.toNat_natCast]
      · refine Or.inr (Or.inl ⟨fun hback => hwhole hback.2.2.1, ?_⟩)
        rw [hcall, if_neg (not_not.mpr haligned),
          if_pos (mt tmod_bitsPerElem_eq_zero_iff.mp hwhole)]
    · refine Or.inr (Or.inl ⟨fun hback => haligned (hmod.mp hback.2.1), ?_⟩)
      rw [hcall, if_pos haligned]
  · refine Or.inr (Or.inl ⟨fun hback => hrange hback.1, ?_⟩)
    rw [bitlistFillContiguous, if_pos (by simpa using hrange)]

/-- A fill of a block of words: the bits of the block become those of `x`, and the block
lies in the list. -/
theorem fillContiguous_spec (h : HasGeometry n b bl) {x : Elem} {bit bits : Int}
    (hcall : bitlistFillContiguous x bl bit bits = some bl') :
    HasGeometry n b bl' ∧
      ∃ i k : Nat, 32 * (i + k) ≤ n ∧ ∀ o, bitAt bl'.bits o
        = if i ≤ o / 32 ∧ o / 32 < i + k then x.getLsbD (o % 32) else bitAt bl.bits o := by
  rcases fillContiguous_cases h x bit bits with
    ⟨-, hnone⟩ | ⟨-, hsame⟩ | ⟨-, i, k, -, -, hend, hfill⟩
  · rw [hnone] at hcall
    cases hcall
  · rw [hsame] at hcall
    cases hcall
    refine ⟨h, 0, 0, by omega, ?_⟩
    intro o
    rw [if_neg (by omega)]
  · rw [hfill] at hcall
    cases hcall
    have hlen := h.length
    have hroom : i + k ≤ bl.bits.length := by omega
    exact ⟨h.withBits (length_fill hroom x), i, k, hend, bitAt_fill hroom x⟩

end Fill

/-! ### The parser -/

section Parser
variable {P : BitlistT → Prop} (hset : ∀ bl bit bl', P bl → bitlistSet bl bit = some bl' → P bl')
include hset

/-- The loop over a range keeps what `bitlist_set` keeps. -/
theorem setRange_closed {bl bl' : BitlistT} {begin number : Int} (h : P bl)
    (hcall : setRange bl begin number = some bl') : P bl' := by
  refine loop_invariant (fun s : BitlistT × Int => P s.1) P ?_ ?_ h hcall
  · intro s s' hs hpass
    obtain ⟨bl, i⟩ := s
    simp only [setRangePass] at hpass
    split at hpass
    · simp only [Option.bind_eq_bind, Option.bind_eq_some_iff, Option.some.injEq,
        Pass.again.injEq] at hpass
      obtain ⟨bl₁, hbl₁, rfl⟩ := hpass
      exact hset bl i bl₁ hs hbl₁
    · cases hpass
  · intro s r hs hpass
    obtain ⟨bl, i⟩ := s
    simp only [setRangePass] at hpass
    split at hpass
    · simp [Option.bind_eq_some_iff] at hpass
    · cases hpass
      exact hs

/-- Reading the end of a range keeps it. -/
theorem parseRange_closed {min max : Int} {s s' : ParseState} {error : Option ParseError}
    (h : P s.bl) (hcall : parseRange min max s = some (s', error)) : P s'.bl := by
  simp only [parseRange] at hcall
  split at hcall
  · cases hcall
    exact h
  · split at hcall
    · cases hcall
      exact h
    · split at hcall
      · cases hcall
        exact h
      · split at hcall
        · cases hcall
          exact h
        · simp only [Option.bind_eq_bind, Option.bind_eq_some_iff, Option.some.injEq,
            Prod.mk.injEq] at hcall
          obtain ⟨bl, hbl, rfl, -⟩ := hcall
          exact setRange_closed hset h hbl

/-- Reading an item keeps it. -/
theorem parseItem_closed {min max : Int} {s s' : ParseState} {error : Option ParseError}
    (h : P s.bl) (hcall : parseItem min max s = some (s', error)) : P s'.bl := by
  simp only [parseItem] at hcall
  split at hcall
  · cases hcall
    exact h
  · split at hcall
    · exact parseRange_closed hset (by exact h) hcall
    · simp only [Option.bind_eq_bind, Option.bind_eq_some_iff, Option.some.injEq,
        Prod.mk.injEq] at hcall
      obtain ⟨bl, hbl, rfl, -⟩ := hcall
      exact hset _ _ _ h hbl

omit hset in
/-- Reading a separator does not touch the list. -/
theorem parseSeparator_bl (s : ParseState) : (parseSeparator s).1.bl = s.bl := by
  simp only [parseSeparator]
  split
  · rfl
  · split <;> rfl
  · rfl

/-- The list at the end of a pass of the parser. -/
def passList : Pass ParseState (ParseState × Option ParseError) → BitlistT
  | .again s => s.bl
  | .done r => r.1.bl

/-- A pass of the parser keeps it. -/
theorem parsePass_closed {min max : Int} {s : ParseState}
    {p : Pass ParseState (ParseState × Option ParseError)} (h : P s.bl)
    (hpass : parsePass min max s = some p) : P (passList p) := by
  simp only [parsePass] at hpass
  split at hpass
  · cases hpass
    exact h
  · split at hpass
    · cases hpass
      exact h
    · simp only [Option.bind_eq_bind, Option.bind_eq_some_iff] at hpass
      obtain ⟨⟨t, error⟩, hitem, hrest⟩ := hpass
      have ht : P t.bl := parseItem_closed hset h hitem
      split at hrest
      · cases hrest
        exact ht
      · -- the separator does not touch the list
        have hsep : P (parseSeparator t).1.bl := by rwa [parseSeparator_bl]
        split at hrest <;> (cases hrest; exact hsep)

/-- `bitlist_from_string` keeps what `bitlist_set` keeps. -/
theorem fromString_closed {malloc result : Bool} {bl bl' : BitlistT} {list : List Char}
    {errmsg : Option String} (h : P bl)
    (hcall : bitlistFromString malloc bl list = some (bl', result, errmsg)) : P bl' := by
  simp only [bitlistFromString, Option.bind_eq_bind, Option.bind_eq_some_iff] at hcall
  obtain ⟨⟨s, error⟩, hloop, hresult⟩ := hcall
  have hs : P s.bl := by
    refine loop_invariant (fun s : ParseState => P s.bl) (fun r => P r.1.bl) ?_ ?_ ?_ hloop
    · intro s s' hs hpass
      exact parsePass_closed hset hs hpass
    · intro s r hs hpass
      exact parsePass_closed hset hs hpass
    · exact h
  split at hresult
  · cases hresult
    exact hs
  · split at hresult <;> (cases hresult; exact hs)

end Parser

end MyTestFiles.Proofs.Bitlist
