import MyTestFiles.Proofs.Bitlist.Boolean
import MyTestFiles.Proofs.Bitlist.Mutators

/-!
# `MyTestFiles.Proofs.Bitlist.Padding`: the observers of whole words and the padding bits

`bitlist_count`, `bitlist_anybit_set` and `bitlist_equal` read whole words, so that they
agree with `bitlist_test` only where the padding bits of the last word are clear: `Clean` is
the invariant, and `Clean.count`, `Clean.anybitSet` and `Clean.equal` are the three
observers under it.

Every step of a pool keeps the invariant (`poolStep_clean`), with one exception:
`bitlist_not` sets the padding bits where the size is no multiple of 32.
`observers_agree` is the result for all runs without such a step.

The invariant is one of pools and not of single lists, because the boolean operations read two
lists and write a third. `CleanPool` says that every list of the pool is clean with the same
geometry.

The condition on runs is about the operation and the size only. A run in which every size is a
multiple of 32 meets it, and so does one that never negates.

The counterexample is five bits after one negation, where the count of the set positions is 5 and
the answer of `bitlist_count` is 32.
-/

set_option autoImplicit false

namespace MyTestFiles.Proofs.Bitlist

open MyTestFiles.Lib
open MyTestFiles.Bitlist

/-- A list of the geometry whose padding bits are clear. -/
structure Clean (n b : Nat) (bl : BitlistT) : Prop extends HasGeometry n b bl where
  padding : ∀ o, n ≤ o → bitAt bl.bits o = false

/-! ### The observers -/

section Observers
variable {n b : Nat} {bl : BitlistT}

/-- The positions where `bitlist_test` answers TRUE are the set bits of the words. -/
theorem Clean.length_setPositions (h : Clean n b bl) :
    (setPositions bl).length = onesBelow bl.bits (32 * bl.bits.length) := by
  have hlen := h.length
  have hwords : n ≤ 32 * bl.bits.length := by omega
  rw [setPositions_eq h.wellFormed, List.length_map, positions, ← List.countP_eq_length_filter,
    h.maxBits, Nat.sub_zero, ← List.range_eq_range',
    onesBelow_of_clear hwords fun o ho _ => h.padding o ho, onesBelow]

/-- The first `k` bits of a word. Nothing wraps. -/
theorem countBits_step (x : Elem) (count : Nat) {k : Nat} (hk : k ≤ 32)
    (h : count + k < 2147483648) :
    (List.range k).foldl
      (fun count bit => int32 (count + if x &&& (1#32 <<< bit) ≠ 0 then 1 else 0)) (count : Int)
        = ((count + (List.range k).countP fun j => x.getLsbD j : Nat) : Int) := by
  induction k with
  | zero => rfl
  | succ k ih =>
      have hprev := ih (by omega) (by omega)
      have hle : (List.range k).countP (fun j => x.getLsbD j) ≤ k := by
        have hlen := List.countP_le_length (p := fun j => x.getLsbD j) (l := List.range k)
        rwa [List.length_range] at hlen
      have hbit := and_one_shiftLeft_ne_zero_iff (show k < 32 by omega) x
      rw [List.range_succ, List.foldl_append, hprev, List.countP_append, List.countP_singleton,
        List.foldl_cons, List.foldl_nil]
      by_cases hset : x.getLsbD k = true
      · rw [if_pos (hbit.mpr hset), if_pos hset, int32_of_range] <;> omega
      · rw [if_neg (fun hne => hset (hbit.mp hne)), if_neg hset, int32_of_range] <;> omega

/-- The loop over the bits of a word adds the ones of the word. -/
theorem countBits_eq (x : Elem) (count : Nat) (h : count + 32 < 2147483648) :
    countBits x count = ((count + ones x : Nat) : Int) := countBits_step x count le_rfl h

/-- The pass over word `k`. -/
theorem count_step (hmax : 32 * bl.bits.length < 2147483648) {k : Nat}
    (hk : k < bl.bits.length) :
    (do
      let bits ← bl.bits[k]?
      some (countBits bits (onesBelow bl.bits (32 * k) : Int)))
        = some (onesBelow bl.bits (32 * (k + 1)) : Int) := by
  have hle : onesBelow bl.bits (32 * k) ≤ 32 * k := by
    have hlen := List.countP_le_length (p := bitAt bl.bits) (l := List.range (32 * k))
    rwa [List.length_range] at hlen
  have hget : bl.bits[k]? = some bl.bits[k] := List.getElem?_eq_getElem hk
  have hword := countBits_eq bl.bits[k] (onesBelow bl.bits (32 * k)) (by omega)
  rw [hget, onesBelow_word k hk, Option.bind_eq_bind, Option.bind_some, hword]

/-- `bitlist_count` counts the set bits of all words. -/
theorem count_eq (hmax : 32 * bl.bits.length < 2147483648)
    (hroom : bl.state.maxElems ≤ bl.bits.length) :
    bitlistCount bl = some (onesBelow bl.bits (32 * bl.state.maxElems) : Int) :=
  foldlM_range_eq (fun k => (onesBelow bl.bits (32 * k) : Int))
    fun _ hk => count_step hmax (hk.trans_le hroom)

/-- `bitlist_count` is the number of set positions. -/
theorem Clean.count (h : Clean n b bl) :
    bitlistCount bl = some ((setPositions bl).length : Int) := by
  have hlen := h.length
  have hmax := h.le_max
  rw [count_eq (by omega) h.wellFormed.room, h.length_setPositions, h.maxElems, hlen]

/-- No set position: all words are zero. -/
theorem Clean.setPositions_eq_nil_iff (h : Clean n b bl) :
    setPositions bl = [] ↔ ∀ o, bitAt bl.bits o = false := by
  rw [setPositions_eq h.wellFormed, List.map_eq_nil_iff, h.maxBits]
  constructor
  · intro hnil o
    by_cases ho : o < n
    · rw [← Bool.not_eq_true]
      intro hset
      have hmem := mem_positions.mpr ⟨Nat.zero_le o, ho, hset⟩
      rw [hnil] at hmem
      cases hmem
    · exact h.padding o (by omega)
  · intro hclear
    exact positions_eq_nil fun o _ _ => hclear o

/-- `bitlist_anybit_set` answers TRUE iff there is a set position. -/
theorem Clean.anybitSet (h : Clean n b bl) :
    bitlistAnybitSet bl = some (!(setPositions bl).isEmpty) := by
  have hlen := h.length
  have helems := h.maxElems
  have hany : bitlistAnybitSet bl
      = some ((List.range bl.state.maxElems).any fun elem => bl.bits.getD elem 0 != 0) := by
    apply anyM_eq_some
    intro elem helem
    have hlt : elem < bl.bits.length := by
      have hmem := List.mem_range.mp helem
      omega
    simp [hlt]
  rw [hany, Option.some.injEq, Bool.eq_iff_iff, Bool.not_eq_true', List.isEmpty_eq_false_iff, Ne,
    h.setPositions_eq_nil_iff, List.any_eq_true]
  constructor
  · rintro ⟨elem, -, hne⟩ hclear
    -- a word that is not zero has a bit
    rw [bne_iff_ne] at hne
    apply hne
    apply BitVec.eq_of_getLsbD_eq
    intro j hj
    have hbit := hclear (32 * elem + j)
    have hzero : (0 : Elem).getLsbD j = false := BitVec.getLsbD_zero
    rwa [bitAt, Nat.mul_add_div (by omega), Nat.mul_add_mod, Nat.div_eq_of_lt hj,
      Nat.mod_eq_of_lt hj, Nat.add_zero, ← hzero] at hbit
  · intro hset
    obtain ⟨o, ho⟩ := not_forall.mp hset
    rw [Bool.not_eq_false] at ho
    have hlt : o / 32 < bl.state.maxElems := by
      by_contra hge
      rw [bitAt_of_ge (by omega)] at ho
      cases ho
    refine ⟨o / 32, List.mem_range.mpr hlt, ?_⟩
    rw [bne_iff_ne]
    intro hzero
    have hbit : (0 : Elem).getLsbD (o % 32) = false := BitVec.getLsbD_zero
    rw [bitAt, hzero, hbit] at ho
    cases ho

/-- `bitlist_test` at every position, as the bits of the words. -/
theorem Clean.tests_eq_iff {bl' : BitlistT} (h : Clean n b bl) (h' : Clean n b bl') :
    (∀ i : Int, b ≤ i → i < b + n → bitlistTest bl i = bitlistTest bl' i) ↔
      bl.bits = bl'.bits := by
  have htest : ∀ o < n, bitlistTest bl (b + o) = some (bitAt bl.bits o) := by
    intro o ho
    have hread := bitlistTest_eq h.wellFormed (show o < bl.state.maxBits by rwa [h.maxBits])
    rwa [h.baseBit] at hread
  have htest' : ∀ o < n, bitlistTest bl' (b + o) = some (bitAt bl'.bits o) := by
    intro o ho
    have hread := bitlistTest_eq h'.wellFormed (show o < bl'.state.maxBits by rwa [h'.maxBits])
    rwa [h'.baseBit] at hread
  constructor
  · intro hagree
    apply words_ext (by omega) (by rw [h.length, h'.length])
    -- A bit is a position of the list, or padding, which is clear in both.
    intro o _
    by_cases ho : o < n
    · have heq := hagree (b + o) (by omega) (by omega)
      rwa [htest o ho, htest' o ho, Option.some.injEq] at heq
    · rw [h.padding o (by omega), h'.padding o (by omega)]
  · intro heq i hle hlt
    obtain ⟨o, rfl⟩ : ∃ o : Nat, i = b + o := ⟨(i - b).toNat, by omega⟩
    rw [htest o (by omega), htest' o (by omega), heq]

/-- `bitlist_equal` answers TRUE iff `bitlist_test` agrees everywhere. -/
theorem Clean.equal {bl' : BitlistT} (h : Clean n b bl) (h' : Clean n b bl') :
    ∃ r, bitlistEqual bl bl' = some r ∧
      (r = true ↔ ∀ i : Int, b ≤ i → i < b + n → bitlistTest bl i = bitlistTest bl' i) := by
  have hlen := h.length
  have hlen' := h'.length
  have helems := h.maxElems
  -- Both lists have the words that the loop reads.
  have hall : bitlistEqual bl bl' = some ((List.range bl.state.maxElems).all fun i =>
      bl.bits.getD i 0 == bl'.bits.getD i 0) := by
    apply allM_eq_some
    intro i hi
    have hmem := List.mem_range.mp hi
    have hlt : i < bl.bits.length := by omega
    have hlt' : i < bl'.bits.length := by omega
    simp [hlt, hlt']
  refine ⟨_, hall, ?_⟩
  rw [h.tests_eq_iff h', List.all_eq_true]
  constructor
  · intro hwords
    apply List.ext_getElem (by omega)
    intro i hi hi'
    have heq := hwords i (List.mem_range.mpr (by omega))
    simpa [hi, hi'] using heq
  · intro heq i _
    rw [heq, beq_self_eq_true]

end Observers

/-! ### The steps -/

section Steps
variable {n b : Nat} {bl bl' : BitlistT}

/-- One bit of the list changes, and no padding bit. -/
theorem Clean.of_update (h : Clean n b bl) {call : Option BitlistT} {v : Bool} {bit : Int}
    (hspec : ∃ bl₁, call = some bl₁ ∧ HasGeometry n b bl₁ ∧
      ∀ o, bitAt bl₁.bits o = if int32 (bit - b) = o ∧ o < n then v else bitAt bl.bits o)
    (hcall : call = some bl') : Clean n b bl' := by
  obtain ⟨bl₁, hbl₁, hgeo, hbits⟩ := hspec
  rw [hbl₁, Option.some.injEq] at hcall
  subst hcall
  refine ⟨hgeo, ?_⟩
  intro o ho
  rw [hbits, if_neg (by omega), h.padding o ho]

/-- `bitlist_set` sets no padding bit. -/
theorem Clean.set (h : Clean n b bl) {bit : Int} (hcall : bitlistSet bl bit = some bl') :
    Clean n b bl' := h.of_update (set_spec h.toHasGeometry bit) hcall

/-- `bitlist_clear` sets no padding bit. -/
theorem Clean.clear (h : Clean n b bl) {bit : Int} (hcall : bitlistClear bl bit = some bl') :
    Clean n b bl' := h.of_update (clear_spec h.toHasGeometry bit) hcall

/-- `bitlist_setall` clears the padding bits behind the last position. -/
theorem Clean.setall (h : Clean n b bl) (hb : b < 2147483648)
    (hcall : bitlistSetall bl n b = some bl') : Clean n b bl' := by
  obtain ⟨hgeo, hbits⟩ := setall_spec h.toHasGeometry hb hcall
  refine ⟨hgeo, ?_⟩
  intro o ho
  rw [hbits, decide_eq_false (by omega)]

/-- `bitlist_clearall` sets no bit. -/
theorem Clean.clearall (h : Clean n b bl) (hb : b < 2147483648)
    (hcall : bitlistClearall bl n b = some bl') : Clean n b bl' := by
  obtain ⟨bl₁, hbl₁, hgeo, hbits⟩ := clearall_spec h.le_max hb h.length
  rw [hbl₁, Option.some.injEq] at hcall
  subst hcall
  exact ⟨hgeo, fun o _ => hbits o⟩

/-- A block of whole words ends before the padding. -/
theorem Clean.fillContiguous (h : Clean n b bl) {x : Elem} {bit bits : Int}
    (hcall : bitlistFillContiguous x bl bit bits = some bl') : Clean n b bl' := by
  obtain ⟨hgeo, i, k, hend, hbits⟩ := fillContiguous_spec h.toHasGeometry hcall
  refine ⟨hgeo, ?_⟩
  intro o ho
  rw [hbits, if_neg (by omega), h.padding o ho]

/-- A new list is clean. -/
theorem clean_of_alloc {malloc : Malloc} (hn : n < 2147483648) (hb : b < 2147483648)
    (hcall : bitlistAlloc malloc n b = some (some bl)) : Clean n b bl := by
  simp only [bitlistAlloc] at hcall
  -- For the largest sizes the number of words wraps, and nothing is allocated.
  by_cases hlarge : 2147483616 < n
  · rw [if_pos (bitsToElems_of_large hlarge hn)] at hcall
    cases hcall
  · have hsmall : n ≤ 2147483616 := by omega
    have helems := bitsToElems_natCast hsmall
    rw [helems, if_neg (by omega)] at hcall
    cases hblock : malloc (((n + 31) / 32 : Nat) : Int).toNat with
    | none =>
        rw [hblock] at hcall
        cases hcall
    | some block =>
        have hlen : (⟨freshState 0 0, block.toList⟩ : BitlistT).bits.length = (n + 31) / 32 := by
          rw [List.Vector.toList_length]
          omega
        obtain ⟨bl₁, hbl₁, hgeo, hbits⟩ := clearall_spec hsmall hb hlen
        rw [hblock] at hcall
        simp only [hbl₁, Option.map_some, Option.some.injEq] at hcall
        subst hcall
        exact ⟨hgeo, fun o _ => hbits o⟩

end Steps

/-! ### Pools -/

section Pools
variable {n b : Nat} {pool pool' : Pool}

/-- All lists of the pool have the geometry, and their padding bits are clear. -/
def CleanPool (n b : Nat) (pool : Pool) : Prop := ∀ addr bl, pool addr = some bl → Clean n b bl

/-- A clean list may take any place in a clean pool. -/
theorem CleanPool.update (h : CleanPool n b pool) {addr : Nat} {bl : BitlistT}
    (hbl : Clean n b bl) : CleanPool n b (Function.update pool addr (some bl)) := by
  intro addr' bl' hget
  by_cases heq : addr' = addr
  · subst heq
    rw [Function.update_self, Option.some.injEq] at hget
    exact hget ▸ hbl
  · rw [Function.update_of_ne heq] at hget
    exact h addr' bl' hget

/-- An operation on one list that keeps it clean keeps the pool clean. -/
theorem CleanPool.updateAt (h : CleanPool n b pool) {addr : Nat}
    {f : BitlistT → Option BitlistT}
    (hf : ∀ bl bl', Clean n b bl → f bl = some bl' → Clean n b bl')
    (hcall : Bitlist.updateAt pool addr f = some pool') : CleanPool n b pool' := by
  simp only [Bitlist.updateAt, Option.bind_eq_bind, Option.bind_eq_some_iff,
    Option.some.injEq] at hcall
  obtain ⟨bl, hget, bl', hbl', rfl⟩ := hcall
  exact h.update (hf bl bl' (h addr bl hget) hbl')

/-- A copy of a clean list is clean. -/
theorem CleanPool.copy (h : CleanPool n b pool) {source target : Nat}
    (hcall : bitlistCopy pool source target = some pool') : CleanPool n b pool' := by
  simp only [bitlistCopy, Option.bind_eq_bind, Option.bind_eq_some_iff] at hcall
  obtain ⟨A, hA, B, hB, hcopy⟩ := hcall
  have hcleanA := h source A hA
  have hlenA := hcleanA.length
  have hlenB := (h target B hB).length
  have hwords : A.bits.take A.state.maxElems ++ B.bits.drop A.state.maxElems = A.bits := by
    rw [hcleanA.maxElems, List.take_of_length_le (by omega), List.drop_of_length_le (by omega),
      List.append_nil]
  split at hcopy
  · rw [hwords, Option.some.injEq] at hcopy
    subst hcopy
    exact h.update hcleanA
  · cases hcopy

/-- A boolean operation that takes two clear bits to a clear bit, or that meets no padding
bits. -/
theorem CleanPool.combine (h : CleanPool n b pool) {f : Elem → Elem → Elem}
    {g : Bool → Bool → Bool} (hf : Bitwise f g) (hg : g false false = false ∨ n % 32 = 0)
    {a b' c : Nat} (hcall : bitlistCombine f pool a b' c = some pool') : CleanPool n b pool' := by
  obtain ⟨A, B, C, hA, hB, hC⟩ := exists_lists_of_combine hcall
  have hcleanA := h a A hA
  have hcleanB := h b' B hB
  have hcleanC := h c C hC
  have hlenA := hcleanA.length
  have hlenB := hcleanB.length
  have hlenC := hcleanC.length
  have helems := hcleanA.maxElems
  rw [combine_eq hA hB hC (by omega) (by omega) (by omega), Option.some.injEq] at hcall
  subst hcall
  refine h.update ⟨?_, ?_⟩
  · -- either state is one of the geometry
    have hstate : HasGeometry n b ⟨if c ≠ a ∧ c ≠ b' then A.state else C.state, C.bits⟩ := by
      split
      · exact ⟨hcleanA.maxElems, hcleanA.maxBits, hcleanA.baseBit, hlenC, hcleanA.le_max⟩
      · exact hcleanC.toHasGeometry
    exact hstate.withBits (length_combineWords (by omega) (by omega) (by omega))
  · intro o ho
    show bitAt (combineWords f A.bits B.bits C.bits A.state.maxElems) o = false
    rw [bitAt_combineWords hf (by omega) (by omega) (by omega)]
    split
    · rw [hcleanA.padding o ho, hcleanB.padding o ho]
      rcases hg with hfalse | hmod
      · exact hfalse
      · omega
    · exact hcleanC.padding o ho

/-- The steps that keep padding bits clear: all but `bitlist_not` on a last word that is only
partly used. -/
def KeepsPadding (n : Nat) : PoolOp → Prop
  | .not _ _ => n % 32 = 0
  | _ => True

/-- The call behind a step without an output. -/
theorem call_of_step {call : Option Pool} {out : Option Bool}
    (h : call.map (·, (none : Option Bool)) = some (pool', out)) : call = some pool' := by
  obtain ⟨p, hcall, heq⟩ := Option.map_eq_some_iff.mp h
  cases heq
  exact hcall

/-- One step. -/
theorem poolStep_clean (hn : n < 2147483648) (hb : b < 2147483648) (h : CleanPool n b pool)
    {op : PoolOp} (hop : KeepsPadding n op) {out : Option Bool}
    (hstep : poolStep n b pool op = some (pool', out)) : CleanPool n b pool' := by
  cases op with
  | alloc addr malloc =>
      simp only [poolStep, Option.bind_eq_bind, Option.bind_eq_some_iff] at hstep
      obtain ⟨r, halloc, hresult⟩ := hstep
      cases r with
      | none =>
          cases hresult
          exact h
      | some list =>
          cases hresult
          exact h.update (clean_of_alloc hn hb halloc)
  | set addr bit =>
      exact h.updateAt (fun bl bl' hbl hset => hbl.set hset) (call_of_step hstep)
  | clear addr bit =>
      exact h.updateAt (fun bl bl' hbl hclear => hbl.clear hclear) (call_of_step hstep)
  | setall addr =>
      exact h.updateAt (fun bl bl' hbl hset => hbl.setall hb hset) (call_of_step hstep)
  | clearall addr =>
      exact h.updateAt (fun bl bl' hbl hclear => hbl.clearall hb hclear) (call_of_step hstep)
  | setContiguous addr bit count =>
      exact h.updateAt (fun bl bl' hbl hfill => hbl.fillContiguous hfill) (call_of_step hstep)
  | clearContiguous addr bit count =>
      exact h.updateAt (fun bl bl' hbl hfill => hbl.fillContiguous hfill) (call_of_step hstep)
  | copy source target =>
      exact h.copy (call_of_step hstep)
  | or a b' c =>
      exact h.combine bitwise_or (Or.inl rfl) (call_of_step hstep)
  | and a b' c =>
      exact h.combine bitwise_and (Or.inl rfl) (call_of_step hstep)
  | xor a b' c =>
      exact h.combine bitwise_xor (Or.inl rfl) (call_of_step hstep)
  | not a b' =>
      -- complements of padding bits are set, so that there must be none
      exact h.combine bitwise_not (Or.inr hop) (call_of_step hstep)
  | andNot a b' c =>
      exact h.combine bitwise_andNot (Or.inl rfl) (call_of_step hstep)
  | fromString addr malloc list =>
      simp only [poolStep, Option.bind_eq_bind, Option.bind_eq_some_iff, Option.some.injEq,
        Prod.mk.injEq] at hstep
      obtain ⟨bl, hget, ⟨bl', result, errmsg⟩, hparse, rfl, -⟩ := hstep
      exact h.update (fromString_closed (fun bl bit bl' hbl hset => Clean.set hbl hset)
        (h addr bl hget) hparse)

/-- The observers of whole words agree with `bitlist_test` on the lists of a pool. -/
def ObserversAgree (n b : Nat) (pool : Pool) : Prop :=
  ∀ addr bl, pool addr = some bl →
    bl.state.maxBits = n ∧ bl.state.baseBit = b ∧
    bitlistCount bl = some ((setPositions bl).length : Int) ∧
    bitlistAnybitSet bl = some (!(setPositions bl).isEmpty) ∧
    ∀ addr' bl', pool addr' = some bl' → ∃ r, bitlistEqual bl bl' = some r ∧
      (r = true ↔ ∀ i : Int, b ≤ i → i < b + n → bitlistTest bl i = bitlistTest bl' i)

/-- In a clean pool the three observers agree with the bits. -/
theorem CleanPool.observersAgree (h : CleanPool n b pool) : ObserversAgree n b pool := by
  intro addr bl hget
  have hclean := h addr bl hget
  refine ⟨hclean.maxBits, hclean.baseBit, hclean.count, hclean.anybitSet, ?_⟩
  intro addr' bl' hget'
  exact hclean.equal (h addr' bl' hget')

/-- In every run that uses `bitlist_not` only on lists of whole words, the observers of
whole words agree with `bitlist_test` in every state reached. -/
theorem observers_agree (hn : n < 2147483648) (hb : b < 2147483648) {ops : List PoolOp}
    (hops : ∀ op ∈ ops, KeepsPadding n op) {outs : List (Option Bool)}
    (hrun : run (poolStep n b) emptyPool ops = some (pool, outs)) : ObserversAgree n b pool := by
  have hclean : CleanPool n b pool := by
    refine run_invariant (CleanPool n b) (KeepsPadding n) ?_ ?_ hops hrun
    · intro pool op pool' out hpool hop hstep
      exact poolStep_clean hn hb hpool hop hstep
    · intro addr bl hget
      cases hget
  exact hclean.observersAgree

/-- Memory that holds zeros. -/
def zeros : Malloc := fun elems => some (List.Vector.replicate elems 0)

/-- Six bits from 10 on, all set and then one cleared. -/
theorem observers_agree_six_bits : ∃ pool outs,
    run (poolStep 6 10) emptyPool [.alloc 0 zeros, .setall 0, .clear 0 12] = some (pool, outs) ∧
      pool 0 = some ⟨⟨1, 6, 10, 0, 0⟩, [0x3b]⟩ ∧ ObserversAgree 6 10 pool := by
  have hlist : (run (poolStep 6 10) emptyPool [.alloc 0 zeros, .setall 0, .clear 0 12]).bind
      (fun r => r.1 0) = some ⟨⟨1, 6, 10, 0, 0⟩, [0x3b]⟩ := by decide
  obtain ⟨⟨pool, outs⟩, hrun, hget⟩ := Option.bind_eq_some_iff.mp hlist
  refine ⟨pool, outs, hrun, hget, observers_agree (by decide) (by decide) ?_ hrun⟩
  intro op hop
  simp only [List.mem_cons, List.not_mem_nil, or_false] at hop
  rcases hop with rfl | rfl | rfl <;> trivial

/-- Five bits: after `bitlist_not` of the empty list, `bitlist_count` answers 32. -/
theorem not_observers_agree_five_bits :
    ¬ ∀ n b : Nat, 0 < n → n < 2147483648 → b < 2147483648 → ∀ ops pool outs,
      run (poolStep n b) emptyPool ops = some (pool, outs) → ObserversAgree n b pool := by
  intro h
  have hlist : (run (poolStep 5 0) emptyPool [.alloc 0 zeros, .not 0 0]).bind (fun r => r.1 0)
      = some ⟨⟨1, 5, 0, 0, 0⟩, [0xffffffff]⟩ := by decide
  obtain ⟨⟨pool, outs⟩, hrun, hget⟩ := Option.bind_eq_some_iff.mp hlist
  have hagree := h 5 0 (by decide) (by decide) (by decide) _ pool outs hrun
  obtain ⟨-, -, hcount, -⟩ := hagree 0 _ hget
  have hfive : setPositions ⟨⟨1, 5, 0, 0, 0⟩, [0xffffffff]⟩ = [0, 1, 2, 3, 4] := by decide
  have hall : bitlistCount ⟨⟨1, 5, 0, 0, 0⟩, [0xffffffff]⟩ = some 32 := by decide +kernel
  rw [hall, hfive] at hcount
  revert hcount
  decide

end Pools

end MyTestFiles.Proofs.Bitlist
