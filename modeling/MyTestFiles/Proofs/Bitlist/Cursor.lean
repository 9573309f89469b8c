import MyTestFiles.Lib.Run
import MyTestFiles.Proofs.Bitlist.Basic

/-!
# `MyTestFiles.Proofs.Bitlist.Cursor`: the cursor visits the set positions

`Resumes bl p` says that the cursor of a list stands right before offset `p`. One call of
`bitlist_find_bit` moves it past the next set offset (`findBit_next`): the loop over the
words is `findPass_ok`, and the padding bits of the last word are cut off at the end
(`findFound_spec`).

`cursor_law` is the law over all calls, and `findAfter_of_valid` the case of
`bitlist_find_after`.

* A cursor is a word and a bit in it. The search goes on in the rest of that word, then in the
  words behind it, up to a word that is not zero.
* The set positions from a place on are `positionsFrom`, as numbers `numbersFrom`. A call takes
  the first of them, and the others are what the next call starts from.
* The cursor is kept in the list, so a call changes the list. `withCursor` is the list with
  another cursor, and none of the other lemmas depends on the cursor.
-/

set_option autoImplicit false

namespace MyTestFiles.Proofs.Bitlist

open MyTestFiles.Lib
open MyTestFiles.Bitlist

/-! ### One word -/

section Word

/-- The scan of one word stops at the first set bit, or at the end of the word. -/
theorem scanBits_spec (bits : Elem) (n bit : Nat) (h : bit + n = 32) :
    bit ≤ scanBits bits n bit ∧ scanBits bits n bit ≤ 32 ∧
      (scanBits bits n bit < 32 → bits.getLsbD (scanBits bits n bit) = true) ∧
      ∀ j, bit ≤ j → j < scanBits bits n bit → bits.getLsbD j = false := by
  induction n generalizing bit with
  | zero =>
      simp only [scanBits]
      refine ⟨le_rfl, by omega, by omega, ?_⟩
      intro j hle hlt
      omega
  | succ n ih =>
      have hbit : bit < 32 := by omega
      have hmask := and_one_shiftLeft_ne_zero_iff hbit bits
      by_cases hset : bits &&& (1#32 <<< bit) ≠ 0
      · have hstop : scanBits bits (n + 1) bit = bit := by simp only [scanBits, if_pos hset]
        rw [hstop]
        refine ⟨le_rfl, hbit.le, fun _ => hmask.mp hset, ?_⟩
        intro j hle hlt
        omega
      · have hgo : scanBits bits (n + 1) bit = scanBits bits n (bit + 1) := by
          simp only [scanBits, if_neg hset]
        rw [hgo]
        -- the bit here is clear, and the scan goes on behind it
        obtain ⟨hle, h32, hfound, hclear⟩ := ih (bit + 1) (by omega)
        refine ⟨by omega, h32, hfound, ?_⟩
        intro j hj hlt
        by_cases heq : j = bit
        · rw [heq, ← Bool.not_eq_true]
          exact fun htrue => hset (hmask.mpr htrue)
        · exact hclear j (by omega) hlt

end Word

/-! ### The loop over the words -/

section Scan
variable {bl : BitlistT}

/-- Nothing is set from `start` up to bit `bit` of word `elem`, and `k` words are left. -/
def Scanned (bl : BitlistT) (start k : Nat) (s : Nat × Nat) : Prop :=
  s.1 ≤ bl.state.maxElems ∧ s.2 ≤ 32 ∧ start ≤ 32 * s.1 + s.2 ∧
    (∀ o, start ≤ o → o < 32 * s.1 + s.2 → bitAt bl.bits o = false) ∧
    k = bl.state.maxElems - s.1

/-- The word and the bit that the loop stops at: the next set bit, or the end. -/
def Scan (bl : BitlistT) (start : Nat) (r : Nat × Nat) : Prop :=
  (r.1 < bl.state.maxElems ∧ r.2 < 32 ∧
    IsNext (bitAt bl.bits) start (32 * bl.state.maxElems) (32 * r.1 + r.2)) ∨
  (r.1 = bl.state.maxElems ∧
    ∀ o, start ≤ o → o < 32 * bl.state.maxElems → bitAt bl.bits o = false)

/-- The bits of one word, as bits of the list. -/
theorem bitAt_of_word {elem j : Nat} {x : Elem} (hx : bl.bits[elem]? = some x) (hj : j < 32) :
    bitAt bl.bits (32 * elem + j) = x.getLsbD j := by
  have hdiv : (32 * elem + j) / 32 = elem := by omega
  have hmod : (32 * elem + j) % 32 = j := by omega
  rw [bitAt_of_getElem? (by rw [hdiv]; exact hx), hmod]

/-- An offset of word `elem`, from its bit `bit` on. -/
theorem exists_bit_of_word {elem bit o : Nat} (hle : 32 * elem + bit ≤ o)
    (hlt : o < 32 * (elem + 1)) : ∃ j, o = 32 * elem + j ∧ bit ≤ j ∧ j < 32 :=
  ⟨o - 32 * elem, by omega, by omega, by omega⟩

/-- A word without a set bit from `bit` on is behind the scan. -/
theorem Scanned.next_word {start k elem bit : Nat} (h : Scanned bl start k (elem, bit))
    (hlt : elem < bl.state.maxElems)
    (hclear : ∀ o, 32 * elem + bit ≤ o → o < 32 * (elem + 1) → bitAt bl.bits o = false) :
    Scanned bl start (k - 1) (elem + 1, 0) ∧ k - 1 < k := by
  obtain ⟨hle, h32, hstart, hbefore, hk⟩ := h
  refine ⟨⟨hlt, by omega, by omega, ?_, by omega⟩, by omega⟩
  intro o ho hlt'
  by_cases hold : o < 32 * elem + bit
  · exact hbefore o ho hold
  · exact hclear o (by omega) (by omega)

/-- A pass over the words finds a word that is not zero, or goes on with the next. -/
theorem findPass_ok (hroom : bl.state.maxElems ≤ bl.bits.length) (start k : Nat)
    (s : Nat × Nat) (h : Scanned bl start k s) :
    PassOk (findPass bl) (Scanned bl start) (Scan bl start) k s := by
  obtain ⟨elem, bit⟩ := s
  obtain ⟨hle, h32, hstart, hbefore, hk⟩ := id h
  simp only at hle h32 hstart hbefore
  by_cases hlt : elem < bl.state.maxElems
  · by_cases hbit : bit ≥ 32
    · -- the cursor was on the last bit of the word
      obtain ⟨hnext, hk'⟩ := h.next_word hlt (by omega)
      exact Or.inl ⟨(elem + 1, 0), k - 1, by simp [findPass, hlt, hbit], hnext, hk'⟩
    · have hlen : elem < bl.bits.length := by omega
      obtain ⟨x, hx⟩ : ∃ x, bl.bits[elem]? = some x := ⟨_, List.getElem?_eq_getElem hlen⟩
      -- A word without a set bit is skipped as a whole.
      by_cases hzero : x = 0#32
      · have hclear : ∀ o, 32 * elem + bit ≤ o → o < 32 * (elem + 1) →
            bitAt bl.bits o = false := by
          intro o ho hlt'
          obtain ⟨j, rfl, -, hj⟩ := exists_bit_of_word ho hlt'
          rw [bitAt_of_word hx hj, hzero, BitVec.getLsbD_zero]
        obtain ⟨hnext, hk'⟩ := h.next_word hlt hclear
        refine Or.inl ⟨(elem + 1, 0), k - 1, ?_, hnext, hk'⟩
        simp [findPass, hlt, hx, hzero]
      · obtain ⟨hge, hmax, hfound, hbelow⟩ := scanBits_spec x (32 - bit) bit (by omega)
        generalize hr : scanBits x (32 - bit) bit = r at hge hmax hfound hbelow
        by_cases hr32 : r < 32
        · refine Or.inr ⟨(elem, r), ?_, Or.inl ⟨hlt, hr32, by simp only; omega, ?_, ?_, ?_⟩⟩
          · simp [findPass, hlt, show ¬ 32 ≤ bit by omega, hx, hzero, hr, hr32]
          · simp only
            omega
          · rw [bitAt_of_word hx hr32]
            exact hfound hr32
          · intro o ho hlt'
            simp only at hlt'
            by_cases hold : o < 32 * elem + bit
            · exact hbefore o ho hold
            · obtain ⟨j, rfl, hj, hj32⟩ :=
                exists_bit_of_word (by omega : 32 * elem + bit ≤ o) (by omega)
              rw [bitAt_of_word hx hj32]
              exact hbelow j hj (by omega)
        · -- the word is not zero, but its set bits come before the cursor
          have hclear : ∀ o, 32 * elem + bit ≤ o → o < 32 * (elem + 1) →
              bitAt bl.bits o = false := by
            intro o ho hlt'
            obtain ⟨j, rfl, hj, hj32⟩ := exists_bit_of_word ho hlt'
            rw [bitAt_of_word hx hj32]
            exact hbelow j hj (by omega)
          obtain ⟨hnext, hk'⟩ := h.next_word hlt hclear
          refine Or.inl ⟨(elem + 1, 0), k - 1, ?_, hnext, hk'⟩
          simp [findPass, hlt, show ¬ 32 ≤ bit by omega, hx, hzero, hr, hr32]
  · have hend : elem = bl.state.maxElems := by omega
    refine Or.inr ⟨(elem, bit), by simp [findPass, hlt], Or.inr ⟨hend, ?_⟩⟩
    intro o ho hlt'
    exact hbefore o ho (by omega)

/-- The loop, from a cursor that is not beyond the words. -/
theorem findLoop_spec (hroom : bl.state.maxElems ≤ bl.bits.length) {elem bit : Nat}
    (helem : elem ≤ bl.state.maxElems) (hbit : bit ≤ 32) :
    ∃ r, loop (findPass bl) (findFuel bl) (elem, bit) = some r ∧
      Scan bl (32 * elem + bit) r := by
  have hstart : Scanned bl (32 * elem + bit) (bl.state.maxElems - elem) (elem, bit) := by
    refine ⟨helem, hbit, le_rfl, ?_, rfl⟩
    intro o ho hlt
    simp only at hlt
    omega
  exact loop_rule _ (findPass_ok hroom _) hstart (by simp only [findFuel]; omega)

end Scan

/-! ### One call -/

section Call
variable {bl : BitlistT}

/-- The same list with another cursor. -/
def withCursor (bl : BitlistT) (elem bit : Nat) : BitlistT :=
  { bl with state := { bl.state with lastElem := elem, lastBit := bit } }

/-- The cursor stands right before offset `p`: a call of `bitlist_find_next` goes on
there. -/
def Resumes (bl : BitlistT) (p : Nat) : Prop :=
  (bl.state.lastElem < bl.state.maxElems ∧ bl.state.lastBit < 32 ∧
    p = 32 * bl.state.lastElem + bl.state.lastBit + 1) ∨
  (bl.state.maxElems ≤ bl.state.lastElem ∧ bl.state.maxBits ≤ p)

/-- What a call from offset `p` does: the next set position and the cursor behind it, or
the end. -/
def Finds (bl : BitlistT) (p : Nat) (bl' : BitlistT) (r : Int) : Prop :=
  (∃ elem bit, bl' = withCursor bl elem bit) ∧
    ((∃ o, IsNext (bitAt bl.bits) p bl.state.maxBits o ∧
        r = int32 ((bl.state.baseBit : Int) + o) ∧ Resumes bl' (o + 1)) ∨
      (positions (bitAt bl.bits) p bl.state.maxBits = [] ∧ r = bitlistInvalid ∧
        Resumes bl' bl.state.maxBits))

/-- The cursor does not bear on the form of a list. -/
theorem WellFormed.withCursor (h : WellFormed bl) (elem bit : Nat) :
    WellFormed (withCursor bl elem bit) := ⟨h.elems, h.room, h.maxBits_le⟩

/-- The words have room for all bits. -/
theorem WellFormed.maxBits_le_words (h : WellFormed bl) :
    bl.state.maxBits ≤ 32 * bl.state.maxElems := by
  have := h.elems
  omega

/-- The end of a call: the padding bits of the last word do not count. -/
theorem findFound_spec (h : WellFormed bl) {p : Nat} {r : Nat × Nat} (hscan : Scan bl p r) :
    Finds bl p (findFound bl r.1 r.2).1 (findFound bl r.1 r.2).2 := by
  have hwords := h.maxBits_le_words
  have hmax := h.maxBits_le
  have helems := h.elems
  obtain ⟨elem, bit⟩ := r
  rcases hscan with ⟨hlt, h32, hnext⟩ | ⟨hend, hclear⟩
  · simp only at hlt h32 hnext
    have hint : int32 ((elem : Int) * bitsPerElem + bit) = (32 * elem + bit : Nat) := by
      rw [int32_of_range] <;> simp only [bitsPerElem] <;> omega
    have huint : uint32 ((32 * elem + bit : Nat) : Int) = 32 * elem + bit :=
      uint32_natCast (by omega)
    by_cases hpad : 32 * elem + bit ≥ bl.state.maxBits
    · -- the next set bit is padding, so that no position is left
      have hfound : findFound bl elem bit
          = (withCursor bl bl.state.maxElems bit, bitlistInvalid) := by
        simp only [findFound, hint, huint, ge_iff_le, if_neg (Nat.not_le.mpr hlt), if_pos hpad]
        rfl
      rw [hfound]
      refine ⟨⟨_, _, rfl⟩, Or.inr ⟨?_, rfl, Or.inr ⟨le_rfl, le_rfl⟩⟩⟩
      apply positions_eq_nil
      intro o ho hlt'
      exact hnext.2.2.2 o ho (by omega)
    · have hfound : findFound bl elem bit
          = (withCursor bl elem bit, int32 ((32 * elem + bit : Nat) + bl.state.baseBit)) := by
        simp only [findFound, hint, huint, ge_iff_le, if_neg (Nat.not_le.mpr hlt), if_neg hpad]
        rfl
      rw [hfound]
      refine ⟨⟨_, _, rfl⟩, Or.inl ⟨32 * elem + bit, ⟨hnext.1, by omega, hnext.2.2⟩, ?_, ?_⟩⟩
      · rw [add_comm]
      · exact Or.inl ⟨hlt, h32, rfl⟩
  -- The scan has gone through all words, and its position is behind the last.
  · simp only at hend
    have hfound : findFound bl elem bit = (withCursor bl elem bit, bitlistInvalid) := by
      simp [findFound, withCursor, hend]
    rw [hfound]
    refine ⟨⟨_, _, rfl⟩, Or.inr ⟨?_, rfl, Or.inr ⟨hend.ge, le_rfl⟩⟩⟩
    apply positions_eq_nil
    intro o ho hlt'
    exact hclear o ho (by omega)

/-- `bitlist_find_bit` from the start of the list. -/
theorem findBit_first (h : WellFormed bl) :
    ∃ bl' r, bitlistFindBit bl true = some (bl', r) ∧ Finds bl 0 bl' r := by
  obtain ⟨s, hloop, hscan⟩ := findLoop_spec h.room (Nat.zero_le _) (by omega : 0 ≤ 32)
  refine ⟨_, _, ?_, findFound_spec h hscan⟩
  simp [bitlistFindBit, hloop]

/-- `bitlist_find_bit` from the cursor. -/
theorem findBit_next (h : WellFormed bl) {p : Nat} (hp : Resumes bl p) :
    ∃ bl' r, bitlistFindBit bl false = some (bl', r) ∧ Finds bl p bl' r := by
  rcases hp with ⟨helem, hbit, rfl⟩ | ⟨helem, hp⟩
  · have hnext : uint32 ((bl.state.lastBit : Int) + 1) = bl.state.lastBit + 1 := by
      rw [uint32_of_range] <;> omega
    obtain ⟨s, hloop, hscan⟩ :=
      findLoop_spec h.room helem.le (by omega : bl.state.lastBit + 1 ≤ 32)
    refine ⟨_, _, ?_, findFound_spec h hscan⟩
    simp [bitlistFindBit, hnext, hloop, show ¬ bl.state.maxElems ≤ bl.state.lastElem by omega]
  · refine ⟨bl, bitlistInvalid, by simp [bitlistFindBit, helem], ⟨_, _, rfl⟩, Or.inr ⟨?_, rfl, ?_⟩⟩
    · apply positions_eq_nil
      intro o ho hlt
      omega
    · exact Or.inr ⟨helem, le_rfl⟩

end Call

/-! ### All calls -/

section Calls
variable {bl : BitlistT}

/-- One call: of `bitlist_find_first`, or of `bitlist_find_next`. -/
def cursorStep (bl : BitlistT) : Bool → Option (BitlistT × Int)
  | true => bitlistFindFirst bl
  | false => bitlistFindNext bl

/-- The set positions from offset `p` on, as natural numbers. -/
def numbersFrom (bl : BitlistT) (p : Nat) : List Nat :=
  (positions (bitAt bl.bits) p bl.state.maxBits).map fun (o : Nat) => bl.state.baseBit + o

/-- The set positions from offset `p` on. -/
def positionsFrom (bl : BitlistT) (p : Nat) : List Int :=
  (positions (bitAt bl.bits) p bl.state.maxBits).map fun (o : Nat) => (bl.state.baseBit : Int) + o

/-- The positions, as `int`s. -/
theorem positionsFrom_eq_map (p : Nat) :
    positionsFrom bl p = (numbersFrom bl p).map fun (i : Nat) => (i : Int) := by
  simp [positionsFrom, numbersFrom]

/-- The set positions are those from offset 0 on. -/
theorem setPositions_eq_positionsFrom (h : WellFormed bl) :
    setPositions bl = positionsFrom bl 0 := setPositions_eq h

/-- The positions do not depend on the cursor. -/
theorem positionsFrom_withCursor (elem bit p : Nat) :
    positionsFrom (withCursor bl elem bit) p = positionsFrom bl p := rfl

/-- The same for the numbers. -/
theorem numbersFrom_withCursor (elem bit p : Nat) :
    numbersFrom (withCursor bl elem bit) p = numbersFrom bl p := rfl

/-- The first of some positions, as a result of the calls. -/
def firstOf : List Nat → Int
  | [] => bitlistInvalid
  | p :: _ => p

/-- A call returns the first of the positions that are left, and leaves the others. -/
theorem Finds.numbers {p : Nat} {bl' : BitlistT} {r : Int} (h : Finds bl p bl' r)
    (hint : bl.state.baseBit + bl.state.maxBits ≤ 2147483648) :
    r = firstOf (numbersFrom bl p) ∧
      ∃ q, Resumes bl' q ∧ numbersFrom bl q = (numbersFrom bl p).tail := by
  obtain ⟨-, ⟨o, hnext, hr, hres⟩ | ⟨hnil, hr, hres⟩⟩ := h
  · have hpos := hnext.positions_eq
    have hlt := hnext.2.1
    refine ⟨?_, o + 1, hres, ?_⟩
    · rw [hr, int32_of_range (by omega) (by omega), numbersFrom, hpos]
      rfl
    · simp only [numbersFrom, hpos, List.map_cons, List.tail_cons]
  · refine ⟨by rw [numbersFrom, hnil, hr]; rfl, bl.state.maxBits, hres, ?_⟩
    have hend : Lib.positions (bitAt bl.bits) bl.state.maxBits bl.state.maxBits = [] :=
      positions_eq_nil fun o hle hlt => by omega
    simp [numbersFrom, hnil, hend]

/-- The same for positions as `int`s. -/
theorem Finds.positions {p : Nat} {bl' : BitlistT} {r : Int} (h : Finds bl p bl' r)
    (hint : bl.state.baseBit + bl.state.maxBits ≤ 2147483648) :
    r = (positionsFrom bl p).headD bitlistInvalid ∧
      ∃ q, Resumes bl' q ∧ positionsFrom bl q = (positionsFrom bl p).tail := by
  obtain ⟨hr, q, hq, htail⟩ := h.numbers hint
  refine ⟨?_, q, hq, ?_⟩
  · rw [hr, positionsFrom_eq_map]
    cases numbersFrom bl p <;> rfl
  · rw [positionsFrom_eq_map, positionsFrom_eq_map, htail, List.map_tail]

/-- Only the last cursor counts. -/
theorem withCursor_withCursor (elem bit elem' bit' : Nat) :
    withCursor (withCursor bl elem bit) elem' bit' = withCursor bl elem' bit' := rfl

/-- The first entries of a list that goes on with `d` for ever. -/
theorem map_range_succ_getD (xs : List Int) (d : Int) (k : Nat) :
    (List.range (k + 1)).map (fun j => xs.getD j d)
      = xs.headD d :: (List.range k).map fun j => xs.tail.getD j d := by
  rw [List.range_succ_eq_map, List.map_cons, List.map_map]
  cases xs <;> simp [Function.comp_def]

/-- The calls of `bitlist_find_next` from a cursor right before offset `p`. -/
theorem run_findNext (h : WellFormed bl)
    (hint : bl.state.baseBit + bl.state.maxBits ≤ 2147483648) {p : Nat} (hp : Resumes bl p)
    (k : Nat) :
    ∃ elem bit, run cursorStep bl (List.replicate k false) = some (withCursor bl elem bit,
      (List.range k).map fun j => (positionsFrom bl p).getD j bitlistInvalid) := by
  induction k generalizing bl p with
  | zero => exact ⟨_, _, rfl⟩
  | succ k ih =>
      obtain ⟨bl', r, hcall, hfinds⟩ := findBit_next h hp
      obtain ⟨elem, bit, rfl⟩ := hfinds.1
      obtain ⟨hr, q, hq, htail⟩ := hfinds.positions hint
      obtain ⟨elem', bit', hrun⟩ := ih (h.withCursor elem bit) hint hq
      have hstep : cursorStep bl false = some (withCursor bl elem bit, r) := hcall
      refine ⟨elem', bit', ?_⟩
      rw [List.replicate_succ, run_cons_of_step hstep hrun, positionsFrom_withCursor, htail, hr,
        map_range_succ_getD, withCursor_withCursor]

/-- The set positions come in increasing order, each once. -/
theorem setPositions_pairwise (h : WellFormed bl) : (setPositions bl).Pairwise (· < ·) := by
  rw [setPositions_eq h, List.pairwise_map]
  exact positions_pairwise.imp fun hlt => by omega

/-- `bitlist_find_first`, then any number of calls of `bitlist_find_next`. -/
theorem run_findFirst (h : WellFormed bl)
    (hint : bl.state.baseBit + bl.state.maxBits ≤ 2147483648) (k : Nat) :
    ∃ elem bit, run cursorStep bl (true :: List.replicate k false) = some (withCursor bl elem bit,
      (List.range (k + 1)).map fun j => (setPositions bl).getD j bitlistInvalid) := by
  obtain ⟨bl', r, hcall, hfinds⟩ := findBit_first h
  obtain ⟨elem, bit, rfl⟩ := hfinds.1
  obtain ⟨hr, q, hq, htail⟩ := hfinds.positions hint
  obtain ⟨elem', bit', hrun⟩ := run_findNext (h.withCursor elem bit) hint hq k
  have hstep : cursorStep bl true = some (withCursor bl elem bit, r) := hcall
  refine ⟨elem', bit', ?_⟩
  rw [run_cons_of_step hstep hrun, positionsFrom_withCursor, htail, hr,
    setPositions_eq_positionsFrom h, map_range_succ_getD, withCursor_withCursor]

/-- The least set position after a position of the list. -/
theorem find?_setPositions (h : WellFormed bl) {o : Nat} (ho : o < bl.state.maxBits) :
    ((setPositions bl).find? fun i => (bl.state.baseBit : Int) + o < i)
      = (positionsFrom bl (o + 1)).head? := by
  have hshift : (fun i : Int => decide ((bl.state.baseBit : Int) + o < i))
      ∘ (fun (x : Nat) => (bl.state.baseBit : Int) + x) = fun x => decide (o < x) := by
    funext x
    simp
  rw [setPositions_eq h, List.find?_map, hshift, find?_positions (by omega) (by omega),
    positionsFrom, List.head?_map]

/-- `bitlist_find_after` at a position of the list. -/
theorem findAfter_of_valid (h : WellFormed bl)
    (hint : bl.state.baseBit + bl.state.maxBits ≤ 2147483648) {o : Nat}
    (ho : o < bl.state.maxBits) :
    ∃ elem bit, bitlistFindAfter bl (bl.state.baseBit + o) = some (withCursor bl elem bit,
      ((setPositions bl).find? fun i => (bl.state.baseBit : Int) + o < i).getD bitlistInvalid) := by
  have hmax := h.maxBits_le
  have hcursor : setCursor bl o = withCursor bl (o / 32) (o % 32) := by
    rw [setCursor, bitToElem_natCast, bitToBit_natCast, uint32_natCast (by omega), withCursor]
  have hres : Resumes (withCursor bl (o / 32) (o % 32)) (o + 1) := by
    refine Or.inl ⟨h.word_lt ho, Nat.mod_lt o (by omega), ?_⟩
    show o + 1 = 32 * (o / 32) + o % 32 + 1
    omega
  obtain ⟨bl', r, hcall, hfinds⟩ := findBit_next (h.withCursor _ _) hres
  obtain ⟨elem, bit, rfl⟩ := hfinds.1
  obtain ⟨hr, -⟩ := hfinds.positions hint
  refine ⟨elem, bit, ?_⟩
  simp only [bitlistFindAfter, int32_position hmax ho, bitlistValidbit_natCast hmax ho, hcursor,
    hcall, hr, positionsFrom_withCursor, find?_setPositions h ho]
  cases positionsFrom bl (o + 1) <;> rfl

/-- `bitlist_find_after` at an `int` that is no position of the list. -/
theorem findAfter_of_not_valid (hint : bl.state.baseBit + bl.state.maxBits ≤ 2147483648) {b : Int}
    (hlow : -2147483648 ≤ b) (hhigh : b < 2147483648)
    (hb : ¬ (bl.state.baseBit ≤ b ∧ b < bl.state.baseBit + bl.state.maxBits)) :
    bitlistFindAfter bl b = some (bl, bitlistInvalid) := by
  have hvalid : bitlistValidbit bl (int32 (b - bl.state.baseBit)) = false := by
    rw [← Bool.not_eq_true, bitlistValidbit_iff (le_int32 _) (int32_lt _)]
    simp only [int32]
    omega
  simp [bitlistFindAfter, hvalid]

/-- The cursor law. `bitlist_find_first` and then any number of calls of
`bitlist_find_next` return the set positions in ascending order, each once, and then
`BITLIST_INVALID`; `bitlist_find_after` returns the least set position after a position of
the list, and `BITLIST_INVALID` otherwise. Only the cursor changes. -/
theorem cursor_law (h : WellFormed bl)
    (hint : bl.state.baseBit + bl.state.maxBits ≤ 2147483648) (k : Nat) :
    (setPositions bl).Pairwise (· < ·) ∧
    (∃ elem bit, run cursorStep bl (true :: List.replicate k false) = some (withCursor bl elem bit,
      (List.range (k + 1)).map fun j => (setPositions bl).getD j bitlistInvalid)) ∧
    ∀ b : Int, -2147483648 ≤ b → b < 2147483648 →
      (bl.state.baseBit ≤ b ∧ b < bl.state.baseBit + bl.state.maxBits →
        ∃ elem bit, bitlistFindAfter bl b = some (withCursor bl elem bit,
          ((setPositions bl).find? fun i => b < i).getD bitlistInvalid)) ∧
      (¬ (bl.state.baseBit ≤ b ∧ b < bl.state.baseBit + bl.state.maxBits) →
        bitlistFindAfter bl b = some (bl, bitlistInvalid)) := by
  refine ⟨setPositions_pairwise h, run_findFirst h hint k, ?_⟩
  intro b hlow hhigh
  refine ⟨?_, findAfter_of_not_valid hint hlow hhigh⟩
  rintro ⟨hle, hlt⟩
  obtain ⟨o, rfl⟩ : ∃ o : Nat, b = bl.state.baseBit + o := ⟨(b - bl.state.baseBit).toNat, by omega⟩
  exact findAfter_of_valid h hint (by omega)

/-- Six bits from 10 on, of which three are set, and a set padding bit. -/
theorem cursor_law_six_bits :
    ∃ elem bit, run cursorStep ⟨⟨1, 6, 10, 0, 0⟩, [0x65]⟩ [true, false, false, false]
      = some (withCursor ⟨⟨1, 6, 10, 0, 0⟩, [0x65]⟩ elem bit, [10, 12, 15, -1]) := by
  have hwf : WellFormed ⟨⟨1, 6, 10, 0, 0⟩, [0x65]⟩ := ⟨by decide, by decide, by decide⟩
  have hpos : setPositions ⟨⟨1, 6, 10, 0, 0⟩, [0x65]⟩ = [10, 12, 15] := by decide
  obtain ⟨-, ⟨elem, bit, hrun⟩, -⟩ := cursor_law hwf (by decide) 3
  rw [hpos] at hrun
  exact ⟨elem, bit, hrun⟩

end Calls

end MyTestFiles.Proofs.Bitlist
