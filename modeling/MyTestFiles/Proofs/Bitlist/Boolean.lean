import MyTestFiles.Bitlist.Pool
import MyTestFiles.Proofs.Bitlist.Basic

/-!
# `MyTestFiles.Proofs.Bitlist.Boolean`: the boolean operations bit by bit

The operations walk over the words of up to three lists, which may be the same. Word `i` of
each operand is read before word `i` of the result is written and never again, so that the
result is the combination of the old words whatever is aliased (`combineElem_loop`,
`combine_eq`). `boolean_pointwise` is the result for the five operations and
`bitlist_test`.

The three lists are given by their addresses in a pool, so that one list may be the result and an
operand, or all three. No order of the addresses is assumed.

* `combinedPool f pool A B C c k` is the pool after `k` words, and `combineElem_combinedPool` is
  one round of the loop on it. The round reads word `k` of the operands, which no earlier round
  has written, also where an operand is the result.
* `Bitwise f g` connects an operation on words with one on bits, and `combine_pointwise` is proved
  once for any two of these. The five operations are instances.
* The operands need the same geometry, and the result as many words. The padding bits are combined
  like all others, and no position sees them.
-/

set_option autoImplicit false

namespace MyTestFiles.Proofs.Bitlist

open MyTestFiles.Lib
open MyTestFiles.Bitlist

section Boolean
variable {pool pool' : Pool}

/-- A word that a write to the list `c` leaves alone, in any list of the pool. -/
theorem exists_word_of_update {a c i : Nat} {A C : BitlistT} (hA : pool a = some A)
    (hC : pool c = some C) {bits : List Elem} (hsame : bits[i]? = C.bits[i]?) :
    ∃ A', Function.update pool c (some { C with bits := bits }) a = some A' ∧
      A'.bits[i]? = A.bits[i]? := by
  by_cases hac : a = c
  · subst hac
    rw [hA, Option.some.injEq] at hC
    exact ⟨_, Function.update_self .., by rw [hC]; exact hsame⟩
  · exact ⟨A, by rw [Function.update_of_ne hac, hA], rfl⟩

/-- The pool while a boolean operation runs: the first `k` words of `c` are combined. -/
def combinedPool (f : Elem → Elem → Elem) (pool : Pool) (A B C : BitlistT) (c k : Nat) : Pool :=
  Function.update pool c (some { C with bits := combineWords f A.bits B.bits C.bits k })

/-- The round of word `k`. -/
theorem combineElem_combinedPool {f : Elem → Elem → Elem} {a b' c : Nat} {A B C : BitlistT}
    (hA : pool a = some A) (hB : pool b' = some B) (hC : pool c = some C) {k : Nat}
    (hkA : k < A.bits.length) (hkB : k < B.bits.length) (hkC : k < C.bits.length) :
    combineElem f a b' c (combinedPool f pool A B C c k) k
      = some (combinedPool f pool A B C c (k + 1)) := by
  have hcomb := length_combineWords (f := f) hkA.le hkB.le hkC.le
  have hrest : (combineWords f A.bits B.bits C.bits k)[k]? = C.bits[k]? :=
    getElem?_combineWords hkA.le hkB.le le_rfl
  -- an operand may be `c` itself: its word `k` is still the old one
  obtain ⟨A', hA', hwordA⟩ := exists_word_of_update hA hC hrest
  obtain ⟨B', hB', hwordB⟩ := exists_word_of_update hB hC hrest
  have hx : A.bits[k]? = some A.bits[k] := List.getElem?_eq_getElem hkA
  have hy : B.bits[k]? = some B.bits[k] := List.getElem?_eq_getElem hkB
  rw [hx] at hwordA
  rw [hy] at hwordB
  have hroom : k < (combineWords f A.bits B.bits C.bits k).length := by omega
  have hstore := storeElem_natCast hroom (f A.bits[k] B.bits[k])
  rw [combineWords_succ hx hy hkC] at hstore
  simp only [combinedPool, combineElem, Option.bind_eq_bind, Option.bind_some, hA', hB', hwordA,
    hwordB, Function.update_self, hstore, Function.update_idem]

/-- All rounds. -/
theorem combineElem_loop {f : Elem → Elem → Elem} {a b' c : Nat} {A B C : BitlistT}
    (hA : pool a = some A) (hB : pool b' = some B) (hC : pool c = some C) {k : Nat}
    (hkA : k ≤ A.bits.length) (hkB : k ≤ B.bits.length) (hkC : k ≤ C.bits.length) :
    (List.range k).foldlM (combineElem f a b' c) pool = some (combinedPool f pool A B C c k) := by
  have hstart : combinedPool f pool A B C c 0 = pool := by
    rw [combinedPool, ← Function.update_eq_self c pool, hC]
    simp [combineWords]
  have hrounds := foldlM_range_eq (combinedPool f pool A B C c) fun i hi =>
    combineElem_combinedPool hA hB hC (hi.trans_le hkA) (hi.trans_le hkB) (hi.trans_le hkC)
  rw [hstart] at hrounds
  exact hrounds

/-- One call: `c` has the combined words, and the state of `a` unless it is an operand. -/
theorem combine_eq {f : Elem → Elem → Elem} {a b' c : Nat} {A B C : BitlistT}
    (hA : pool a = some A) (hB : pool b' = some B) (hC : pool c = some C)
    (hkA : A.state.maxElems ≤ A.bits.length) (hkB : A.state.maxElems ≤ B.bits.length)
    (hkC : A.state.maxElems ≤ C.bits.length) :
    bitlistCombine f pool a b' c = some (Function.update pool c (some
      { state := if c ≠ a ∧ c ≠ b' then A.state else C.state
        bits := combineWords f A.bits B.bits C.bits A.state.maxElems })) := by
  simp only [bitlistCombine, Option.bind_eq_bind, hA, hB, hC, Option.bind_some]
  by_cases hne : c ≠ a ∧ c ≠ b'
  · -- `c` is no operand and takes the state of `a`
    have hA' : Function.update pool c (some ⟨A.state, C.bits⟩) a = some A := by
      rw [Function.update_of_ne (Ne.symm hne.1), hA]
    have hB' : Function.update pool c (some ⟨A.state, C.bits⟩) b' = some B := by
      rw [Function.update_of_ne (Ne.symm hne.2), hB]
    rw [if_pos hne, if_pos hne, combineElem_loop hA' hB' (Function.update_self ..) hkA hkB hkC,
      combinedPool, Function.update_idem]
  · rw [if_neg hne, if_neg hne, combineElem_loop hA hB hC hkA hkB hkC, combinedPool]

/-- A call that does not fault has three lists. -/
theorem exists_lists_of_combine {f : Elem → Elem → Elem} {a b' c : Nat}
    (hcall : bitlistCombine f pool a b' c = some pool') :
    ∃ A B C, pool a = some A ∧ pool b' = some B ∧ pool c = some C := by
  simp only [bitlistCombine, Option.bind_eq_bind, Option.bind_eq_some_iff] at hcall
  obtain ⟨A, hA, B, hB, C, hC, -⟩ := hcall
  exact ⟨A, B, C, hA, hB, hC⟩

/-! ### Bit by bit -/

/-- What a boolean operation does to each bit of a word. -/
def Bitwise (f : Elem → Elem → Elem) (g : Bool → Bool → Bool) : Prop :=
  ∀ x y : Elem, ∀ j < 32, (f x y).getLsbD j = g (x.getLsbD j) (y.getLsbD j)

/-- Disjunction of words is that of their bits. -/
theorem bitwise_or : Bitwise (fun x y => x ||| y) or := fun _ _ _ _ => BitVec.getLsbD_or

/-- Conjunction of words is that of their bits. -/
theorem bitwise_and : Bitwise (fun x y => x &&& y) and := fun _ _ _ _ => BitVec.getLsbD_and

/-- Exclusive disjunction of words is that of their bits. -/
theorem bitwise_xor : Bitwise (fun x y => x ^^^ y) xor := fun _ _ _ _ => BitVec.getLsbD_xor

/-- So is the difference. -/
theorem bitwise_andNot : Bitwise (fun x y => x &&& ~~~y) fun p q => p && !q := by
  intro x y j hj
  rw [BitVec.getLsbD_and, BitVec.getLsbD_not, decide_eq_true hj, Bool.true_and]

/-- Negation of a word is that of its bits. -/
theorem bitwise_not : Bitwise (fun x _ => ~~~x) fun p _ => !p := by
  intro x y j hj
  rw [BitVec.getLsbD_not, decide_eq_true hj, Bool.true_and]

/-- Two lists of the same size at the same base. -/
structure SameGeometry (bl bl' : BitlistT) : Prop where
  maxElems : bl.state.maxElems = bl'.state.maxElems
  maxBits : bl.state.maxBits = bl'.state.maxBits
  baseBit : bl.state.baseBit = bl'.state.baseBit

/-- After a call only the list at `c` has changed. It has the geometry of `A`, and
`bitlist_test` on it is `g` of `bitlist_test` on the old `A` and `B` at each valid position. -/
def Pointwise (g : Bool → Bool → Bool) (pool : Pool) (A B : BitlistT) (c : Nat)
    (call : Option Pool) : Prop :=
  ∃ pool' C', call = some pool' ∧ pool' c = some C' ∧ SameGeometry C' A ∧
    (∀ d, d ≠ c → pool' d = pool d) ∧
    ∀ i, bitlistValidbit A (int32 (i - A.state.baseBit)) = true →
      ∃ x y, bitlistTest A i = some x ∧ bitlistTest B i = some y ∧ bitlistTest C' i = some (g x y)

section Operands
variable {a b c : Nat} {A B C : BitlistT}

/-- An operation that is bitwise on words is pointwise on positions. -/
theorem combine_pointwise {f : Elem → Elem → Elem} {g : Bool → Bool → Bool} (hf : Bitwise f g)
    (hA : pool a = some A) (hB : pool b = some B) (hC : pool c = some C) (hwfA : WellFormed A)
    (hwfB : WellFormed B) (hsame : SameGeometry B A)
    (hroom : A.state.maxElems ≤ C.bits.length) :
    Pointwise g pool A B c (bitlistCombine f pool a b c) := by
  have hroomA := hwfA.room
  have hroomB : A.state.maxElems ≤ B.bits.length := hsame.maxElems ▸ hwfB.room
  let C' : BitlistT :=
    { state := if c ≠ a ∧ c ≠ b then A.state else C.state
      bits := combineWords f A.bits B.bits C.bits A.state.maxElems }
  -- the state that is not copied is that of an operand
  have hgeometry : SameGeometry C' A := by
    by_cases hne : c ≠ a ∧ c ≠ b
    · have hstate : C'.state = A.state := if_pos hne
      exact ⟨by rw [hstate], by rw [hstate], by rw [hstate]⟩
    · have hstate : C'.state = C.state := if_neg hne
      have hoperand : C = A ∨ C = B := by
        rcases not_and_or.mp hne with hca | hcb
        · rw [not_not.mp hca, hA] at hC
          exact .inl (Option.some.inj hC).symm
        · rw [not_not.mp hcb, hB] at hC
          exact .inr (Option.some.inj hC).symm
      rcases hoperand with rfl | rfl
      · exact ⟨by rw [hstate], by rw [hstate], by rw [hstate]⟩
      · exact ⟨by rw [hstate, hsame.maxElems], by rw [hstate, hsame.maxBits],
          by rw [hstate, hsame.baseBit]⟩
  have hlength : C'.bits.length = C.bits.length := length_combineWords hroomA hroomB hroom
  have hwfC : WellFormed C' :=
    ⟨by rw [hgeometry.maxElems, hgeometry.maxBits, hwfA.elems],
      by rw [hgeometry.maxElems, hlength]; exact hroom,
      by rw [hgeometry.maxBits]; exact hwfA.maxBits_le⟩
  refine ⟨_, C', combine_eq hA hB hC hroomA hroomB hroom, Function.update_self .., hgeometry,
    fun d hd => Function.update_of_ne hd _ _, ?_⟩
  intro i hi
  obtain ⟨o, ho, hlt⟩ := exists_offset _ hi
  have htestA := hwfA.test_of_offset ho hlt
  have htestB := hwfB.test_of_offset (by rw [hsame.baseBit, ho]) (by rw [hsame.maxBits]; exact hlt)
  have htestC :=
    hwfC.test_of_offset (by rw [hgeometry.baseBit, ho]) (by rw [hgeometry.maxBits]; exact hlt)
  have hbit : bitAt C'.bits o = g (bitAt A.bits o) (bitAt B.bits o) := by
    show bitAt (combineWords f A.bits B.bits C.bits A.state.maxElems) o = _
    rw [bitAt_combineWords hf hroomA hroomB (by decide), if_pos (hwfA.word_lt hlt)]
  exact ⟨_, _, htestA, htestB, htestC.trans (congrArg some hbit)⟩

/-- The five boolean operations are pointwise, whichever of their lists are the same. -/
theorem boolean_pointwise (hA : pool a = some A) (hB : pool b = some B) (hC : pool c = some C)
    (hwfA : WellFormed A) (hwfB : WellFormed B) (hsame : SameGeometry B A)
    (hroom : A.state.maxElems ≤ C.bits.length) :
    Pointwise (fun x y => x || y) pool A B c (bitlistOr pool a b c) ∧
    Pointwise (fun x y => x && y) pool A B c (bitlistAnd pool a b c) ∧
    Pointwise (fun x y => x ^^ y) pool A B c (bitlistXor pool a b c) ∧
    Pointwise (fun x y => x && !y) pool A B c (bitlistAndNot pool a b c) ∧
    Pointwise (fun x _ => !x) pool A A c (bitlistNot pool a c) :=
  ⟨combine_pointwise bitwise_or hA hB hC hwfA hwfB hsame hroom,
    combine_pointwise bitwise_and hA hB hC hwfA hwfB hsame hroom,
    combine_pointwise bitwise_xor hA hB hC hwfA hwfB hsame hroom,
    combine_pointwise bitwise_andNot hA hB hC hwfA hwfB hsame hroom,
    combine_pointwise bitwise_not hA hA hC hwfA hwfA ⟨rfl, rfl, rfl⟩ hroom⟩

end Operands

/-- A list of five bits from 7 on. -/
def fiveBits (word : Elem) : BitlistT := ⟨⟨1, 5, 7, 0, 0⟩, [word]⟩

/-- The lists of the example are well formed. -/
theorem wellFormed_fiveBits (word : Elem) : WellFormed (fiveBits word) :=
  ⟨by show 1 = (5 + 31) / 32; decide, Nat.le_refl 1, by show 5 ≤ 2147483648; decide⟩

/-- Two such lists with padding bits set, the second of them the result as well. -/
theorem boolean_pointwise_five_bits :
    ∃ pool : Pool,
      Pointwise (fun x y => x && !y) pool (fiveBits 0xf3) (fiveBits 0x6a) 1
        (bitlistAndNot pool 0 1 1) ∧
      Pointwise (fun x _ => !x) pool (fiveBits 0xf3) (fiveBits 0xf3) 1 (bitlistNot pool 0 1) := by
  let pool : Pool := fun addr => some (fiveBits (if addr = 0 then 0xf3 else 0x6a))
  have h := boolean_pointwise (show pool 0 = some (fiveBits 0xf3) from rfl)
    (show pool 1 = some (fiveBits 0x6a) from rfl) (show pool 1 = some (fiveBits 0x6a) from rfl)
    (wellFormed_fiveBits _) (wellFormed_fiveBits _) ⟨rfl, rfl, rfl⟩ (Nat.le_refl 1)
  exact ⟨pool, h.2.2.2.1, h.2.2.2.2⟩

end Boolean

end MyTestFiles.Proofs.Bitlist
