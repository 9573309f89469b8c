import MyTestFiles.Lib.Paging
import MyTestFiles.Proofs.Bitlist.Cursor
import MyTestFiles.Proofs.Bitlist.Mutators

/-!
# `MyTestFiles.Proofs.Bitlist.Printer`: one call of `bitlist_to_string` prints one page

`Printing` is the state of the print loop: some blocks of the set positions are in the
buffer, the cursor is behind the next position, and the rest is still to come. Each pass over
a block keeps it, and `toString_page` says that a call prints a page and leaves the cursor
before what the page has no room for: the steps that set the cursor back put it behind the
last position printed.

The lengths of texts are `int`s. `toString_overruns` is about a text that no `int` measures:
its length comes out negative, and it goes to the buffer without room for it.

A pass of the loop has three cases, and each has its own lemma.

* The next position follows the current one. Then the block grows, and nothing is printed.
* The block ends. Then its last number is printed behind a dash, unless the block is a single
  number.
* A new block starts. Its first number goes behind a comma, unless it is the first on the page.

The size is tested before a number is printed. A number that does not fit ends the page, and then
the steps at the end of the function set the cursor back by one position, so that the next call
starts with the number that was left out.
-/

set_option autoImplicit false

namespace MyTestFiles.Proofs.Bitlist

open MyTestFiles.Lib
open MyTestFiles.Bitlist

/-- The first length that no `int` holds. -/
def lengthLimit : Nat := 2147483648

/-! ### The cursor and the positions to come -/

/-- The cursor stands right before the set positions `ps`. -/
def Before (bl : BitlistT) (ps : List Nat) : Prop := ∃ q, Resumes bl q ∧ numbersFrom bl q = ps

section Cursor
variable {bl : BitlistT} {ps : List Nat} {p q : Nat}

/-- A call of `bitlist_find_bit` that goes on from a cursor before `ps` answers the first of `ps`
and moves the cursor before the others. -/
theorem findBit_before (h : WellFormed bl)
    (hint : bl.state.baseBit + bl.state.maxBits ≤ 2147483648) (hbefore : Before bl ps) :
    ∃ elem bit, bitlistFindBit bl false = some (withCursor bl elem bit, firstOf ps) ∧
      Before (withCursor bl elem bit) ps.tail := by
  obtain ⟨q, hres, rfl⟩ := hbefore
  obtain ⟨bl', r, hcall, hfinds⟩ := findBit_next h hres
  obtain ⟨elem, bit, rfl⟩ := hfinds.1
  obtain ⟨rfl, q', hres', htail⟩ := hfinds.numbers hint
  exact ⟨elem, bit, hcall, q', hres', by rw [numbersFrom_withCursor, htail]⟩

/-- A call of `bitlist_find_bit` that begins answers the first set position of the list, wherever
the cursor was. -/
theorem findBit_start (h : WellFormed bl)
    (hint : bl.state.baseBit + bl.state.maxBits ≤ 2147483648) :
    ∃ elem bit, bitlistFindBit bl true
        = some (withCursor bl elem bit, firstOf (numbersFrom bl 0)) ∧
      Before (withCursor bl elem bit) (numbersFrom bl 0).tail := by
  obtain ⟨bl', r, hcall, hfinds⟩ := findBit_first h
  obtain ⟨elem, bit, rfl⟩ := hfinds.1
  obtain ⟨rfl, q', hres', htail⟩ := hfinds.numbers hint
  exact ⟨elem, bit, hcall, q', hres', by rw [numbersFrom_withCursor, htail]⟩

/-- The offset of the first of the positions to come. -/
theorem exists_offset_of_numbers (h : numbersFrom bl q = p :: ps) :
    ∃ o, q ≤ o ∧ o < bl.state.maxBits ∧ p = bl.state.baseBit + o ∧
      numbersFrom bl o = p :: ps ∧ numbersFrom bl (o + 1) = ps := by
  obtain ⟨o, rest, hpos, rfl, rfl⟩ := List.map_eq_cons_iff.mp h
  have hnext := isNext_of_positions hpos
  have hrest : rest = positions (bitAt bl.bits) (o + 1) bl.state.maxBits := by
    rw [hnext.positions_eq] at hpos
    exact (List.cons.inj hpos).2.symm
  have hsame : IsNext (bitAt bl.bits) o bl.state.maxBits o :=
    ⟨le_rfl, hnext.2.1, hnext.2.2.1, by omega⟩
  refine ⟨o, hnext.1, hnext.2.1, rfl, ?_, ?_⟩
  · rw [numbersFrom, hsame.positions_eq, List.map_cons, hrest]
  · rw [numbersFrom, hrest]

/-- All positions to come are positions of the list. -/
theorem mem_numbersFrom (h : p ∈ numbersFrom bl q) :
    bl.state.baseBit + q ≤ p ∧ p < bl.state.baseBit + bl.state.maxBits := by
  obtain ⟨o, ho, rfl⟩ := List.mem_map.mp h
  obtain ⟨hle, hlt, -⟩ := mem_positions.mp ho
  omega

/-- A list has at most as many set positions as bits, which bounds the passes of every loop over
them. -/
theorem length_numbersFrom_le : (numbersFrom bl q).length ≤ bl.state.maxBits := by
  rw [numbersFrom, List.length_map, positions]
  exact (List.length_filter_le _ _).trans (by rw [List.length_range']; omega)

/-- The positions behind the first blocks. -/
theorem exists_numbers_of_append {front : List Nat} (h : numbersFrom bl q = front ++ ps)
    (hne : front ≠ []) : ∃ q', 0 < q' ∧ numbersFrom bl q' = ps := by
  induction front generalizing q with
  | nil => exact absurd rfl hne
  | cons p front ih =>
      obtain ⟨o, -, -, -, -, htail⟩ := exists_offset_of_numbers h
      by_cases hnil : front = []
      · subst hnil
        exact ⟨o + 1, by omega, htail⟩
      · exact ih htail hnil

/-- A cursor that is set back to the offset before `o`. -/
theorem before_setCursor (h : WellFormed bl) {o : Nat} (hpos : 0 < o)
    (ho : o ≤ bl.state.maxBits) :
    ∃ elem bit, setCursor bl ((o : Int) - 1) = withCursor bl elem bit ∧
      Before (withCursor bl elem bit) (numbersFrom bl o) := by
  obtain ⟨k, rfl⟩ : ∃ k, o = k + 1 := ⟨o - 1, by omega⟩
  have hmax := h.maxBits_le
  have hsub : ((k + 1 : Nat) : Int) - 1 = k := by omega
  have hcursor : setCursor bl k = withCursor bl (k / 32) (k % 32) := by
    rw [setCursor, bitToElem_natCast, bitToBit_natCast, uint32_natCast (by omega), withCursor]
  refine ⟨k / 32, k % 32, hsub ▸ hcursor, k + 1, ?_, numbersFrom_withCursor ..⟩
  refine Or.inl ⟨h.word_lt (by omega), Nat.mod_lt k (by omega), ?_⟩
  show k + 1 = 32 * (k / 32) + k % 32 + 1
  omega

end Cursor

/-! ### The end of a range -/

section Skip
variable {bl : BitlistT}

/-- A pass of the loop that walks through a block goes on just where the next set position follows
the current one. -/
theorem skipPass_of_find {bl' : BitlistT} (curr next : Int) {next' : Int}
    (hfind : bitlistFindBit bl false = some (bl', next')) :
    skipPass (bl, curr, next) = if int32 (next + 1) = next' then some (.again (bl', next, next'))
      else some (.done (bl', next, next')) := by
  unfold skipPass
  exact bind_of_some hfind

/-- A position is not the largest `int`. -/
theorem int32_succ {p : Nat} (h : p < 2147483584) : int32 ((p : Int) + 1) = (p + 1 : Nat) := by
  rw [int32_of_range] <;> omega

/-- A block ends at `p` where the next position is another one. `bitlistInvalid` is no position,
so the end of the list counts as another one. -/
theorem firstOf_ne {p : Nat} {rest : List Nat} (hends : rest.head? ≠ some p) :
    (p : Int) ≠ firstOf rest := by
  cases rest with
  | nil =>
      rw [firstOf, bitlistInvalid]
      omega
  | cons r rest =>
      rw [List.head?_cons, ne_eq, Option.some.injEq] at hends
      rw [firstOf]
      omega

/-- The passes of the inner loop over the rest of a block. -/
theorem loop_skip (h : WellFormed bl)
    (hint : bl.state.baseBit + bl.state.maxBits ≤ 2147483648) (curr : Int) {p k : Nat}
    {rest : List Nat} (hbefore : Before bl (List.range' (p + 1) k ++ rest))
    (hlast : p + k < 2147483584) (hends : rest.head? ≠ some (p + k + 1)) {fuel : Nat}
    (hfuel : k < fuel) :
    ∃ elem bit, loop skipPass fuel (bl, curr, (p : Int))
        = some (withCursor bl elem bit, ((p + k : Nat) : Int), firstOf rest) ∧
      Before (withCursor bl elem bit) rest.tail := by
  induction k generalizing bl curr p fuel with
  | zero =>
      obtain ⟨fuel, rfl⟩ : ∃ f, fuel = f + 1 := ⟨fuel - 1, by omega⟩
      obtain ⟨elem, bit, hfind, hnext⟩ := findBit_before h hint hbefore
      have hstop : int32 ((p : Int) + 1) ≠ firstOf rest := by
        rw [int32_succ (by omega)]
        exact firstOf_ne hends
      have hpass := skipPass_of_find curr p hfind
      rw [List.range'_zero, List.nil_append] at hpass hnext
      rw [if_neg hstop] at hpass
      exact ⟨elem, bit, loop_of_done hpass fuel, hnext⟩
  | succ k ih =>
      obtain ⟨fuel, rfl⟩ : ∃ f, fuel = f + 1 := ⟨fuel - 1, by omega⟩
      obtain ⟨elem, bit, hfind, hnext⟩ := findBit_before h hint hbefore
      have hpass := skipPass_of_find curr p hfind
      rw [List.range'_succ, List.cons_append] at hpass hnext
      rw [List.tail_cons] at hnext
      rw [firstOf, int32_succ (by omega), if_pos rfl] at hpass
      -- the other passes go on from the next position
      have hend : rest.head? ≠ some (p + 1 + k + 1) := by
        rwa [show p + 1 + k + 1 = p + (k + 1) + 1 by omega]
      obtain ⟨elem', bit', hloop, hbefore'⟩ :=
        ih (h.withCursor elem bit) hint p hnext (by omega) hend (by omega : k < fuel)
      refine ⟨elem', bit', ?_, hbefore'⟩
      rw [loop_of_again hpass, hloop, withCursor_withCursor, show p + 1 + k = p + (k + 1) by omega]

end Skip

/-! ### One pass of the print loop -/

/-- The blocks `spans` are in the buffer, and the positions `ps` are still to come: the
cursor is behind the first of them. -/
structure Printing (bl₀ : BitlistT) (s : PrintState) (spans : List Span) (ps : List Nat) :
    Prop where
  list : ∃ elem bit, s.bl = withCursor bl₀ elem bit
  text : s.text = pageText spans
  len : s.len = (pageText spans).length
  comma : s.comma = separator (pageText spans)
  next : s.next = firstOf ps
  cursor : Before s.bl ps.tail
  left : ∃ q, numbersFrom bl₀ q = ps ∧ (spans = [] ∨ 0 < q)

section Passes
variable {bl₀ : BitlistT} {room size : Nat} {s : PrintState} {spans : List Span} {p : Nat}
  {rest : List Nat}

/-- A length below the limit is its own `int`. -/
theorem int32_length {k : Nat} (h : k < lengthLimit) : int32 k = k := by
  simp only [lengthLimit] at h
  rw [int32_of_range] <;> omega

/-- A length from the limit on is negative as an `int`. -/
theorem int32_length_neg {k : Nat} (h : lengthLimit ≤ k) (hk : k < 4294967296) :
    int32 k < 0 := by
  simp only [lengthLimit] at h
  simp only [int32]
  omega

/-- The text behind the buffer's text. -/
theorem strcpy_of_room {text temp : List Char} (h : (text ++ temp).length < room) :
    strcpy room text temp = some (text ++ temp) := by
  rw [List.length_append] at h
  rw [strcpy, if_pos h]

/-- A copy that does not fit writes outside the buffer. -/
theorem strcpy_of_no_room {text temp : List Char} (h : room ≤ (text ++ temp).length) :
    strcpy room text temp = none := by
  rw [List.length_append] at h
  rw [strcpy, if_neg (by omega)]

/-- A position is never `bitlistInvalid`. -/
theorem firstOf_cons_ne (p : Nat) (rest : List Nat) : firstOf (p :: rest) ≠ bitlistInvalid := by
  rw [firstOf, bitlistInvalid]
  omega

/-- The text with the next number on it is the text of the spans with one more block. -/
theorem Printing.text_append (h : Printing bl₀ s spans (p :: rest)) :
    s.text ++ (s.comma ++ decimal s.next) = pageText (spans ++ [.single p]) := by
  rw [h.text, h.comma, h.next, pageText_concat, Span.item_single, Item.text, firstOf]
  rfl

/-- The length that the size is tested against before a number is printed. -/
theorem Printing.len_add (h : Printing bl₀ s spans (p :: rest)) :
    s.len + ((s.comma ++ decimal s.next).length : Int)
      = ((pageText (spans ++ [.single p])).length : Int) := by
  have happend : (s.text ++ (s.comma ++ decimal s.next)).length
      = (pageText spans).length + (s.comma ++ decimal s.next).length := by
    rw [List.length_append, h.text]
  rw [← h.text_append, happend, h.len, Nat.cast_add]

/-- Nothing is to come. -/
theorem printPass_done (h : Printing bl₀ s spans []) :
    printPass room size s = some (.done s) := by
  have hnext : s.next = bitlistInvalid := h.next
  unfold printPass
  rw [if_pos hnext]

/-- There is no room for the next position. -/
theorem printPass_full (h : Printing bl₀ s spans (p :: rest))
    (hfull : size ≤ (pageText (spans ++ [.single p])).length)
    (hlimit : (pageText (spans ++ [.single p])).length < lengthLimit) :
    printPass room size s = some (.done
      { s with bl := setCursor s.bl (int32 (s.next - s.bl.state.baseBit - 1)) }) := by
  have hne : s.next ≠ bitlistInvalid := by
    rw [h.next]
    exact firstOf_cons_ne p rest
  have hcheck : int32 (s.len + ((s.comma ++ decimal s.next).length : Int)) ≥ (size : Int) := by
    rw [h.len_add, int32_length hlimit]
    exact Int.ofNat_le.mpr hfull
  unfold printPass
  rw [if_neg hne]
  dsimp only
  rw [if_pos hcheck]

/-- The text is too long for its length to be an `int`. -/
theorem printPass_overruns (h : Printing bl₀ s spans (p :: rest)) (hroom : room < lengthLimit)
    (hlimit : lengthLimit ≤ (pageText (spans ++ [.single p])).length)
    (hlen : (pageText (spans ++ [.single p])).length < 4294967296) :
    printPass room size s = none := by
  have hne : s.next ≠ bitlistInvalid := by
    rw [h.next]
    exact firstOf_cons_ne p rest
  have hcheck : ¬int32 (s.len + ((s.comma ++ decimal s.next).length : Int)) ≥ (size : Int) := by
    rw [h.len_add]
    have hneg := int32_length_neg hlimit hlen
    omega
  have hcopy : strcpy room s.text (s.comma ++ decimal s.next) = none := by
    apply strcpy_of_no_room
    rw [h.text_append]
    omega
  unfold printPass
  rw [if_neg hne]
  dsimp only
  rw [if_neg hcheck, hcopy]
  rfl

/-- The state behind the next position, once it is in the buffer. -/
def printed (s : PrintState) (bl : BitlistT) (next : Int) : PrintState where
  bl := bl
  text := s.text ++ (s.comma ++ decimal s.next)
  len := int32 (s.len + ((s.comma ++ decimal s.next).length : Int))
  comma := [',']
  next := next

/-- The next position in the buffer keeps the invariant. -/
theorem Printing.printed (h : Printing bl₀ s spans (p :: rest)) {elem bit : Nat}
    (hbefore : Before (withCursor s.bl elem bit) rest.tail)
    (hlimit : (pageText (spans ++ [.single p])).length < lengthLimit) :
    Printing bl₀ (printed s (withCursor s.bl elem bit) (firstOf rest))
      (spans ++ [.single p]) rest := by
  obtain ⟨elem', bit', hbl⟩ := h.list
  obtain ⟨q, hq, -⟩ := h.left
  obtain ⟨o, -, -, -, -, htail⟩ := exists_offset_of_numbers hq
  -- The page is not empty from here on, so a comma comes first.
  have hcomma : separator (pageText (spans ++ [.single p])) = [','] := by
    apply if_neg
    rw [pageText_eq_nil_iff]
    simp
  exact
    { list := ⟨elem, bit, by
        show withCursor s.bl elem bit = withCursor bl₀ elem bit
        rw [hbl, withCursor_withCursor]⟩
      text := h.text_append
      len := by
        show int32 (s.len + ((s.comma ++ decimal s.next).length : Int)) = _
        rw [h.len_add, int32_length hlimit]
      comma := hcomma.symm
      next := rfl
      cursor := hbefore
      left := ⟨o + 1, htail, Or.inr (Nat.succ_pos o)⟩ }

/-- The next position has room. -/
theorem printPass_prints (hwf : WellFormed bl₀)
    (hint : bl₀.state.baseBit + bl₀.state.maxBits ≤ 2147483648)
    (h : Printing bl₀ s spans (p :: rest)) (hsize : size ≤ room) (hsmall : size < lengthLimit)
    (hfits : (pageText (spans ++ [.single p])).length < size) :
    ∃ t, Printing bl₀ t (spans ++ [.single p]) rest ∧ printPass room size s
      = if int32 (p + 1) = firstOf rest then printRange room size t p else some (.again t) := by
  have hne : s.next ≠ bitlistInvalid := by
    rw [h.next]
    exact firstOf_cons_ne p rest
  -- there is room, for the comparison as for the copy
  have hcheck : ¬int32 (s.len + ((s.comma ++ decimal s.next).length : Int)) ≥ (size : Int) := by
    rw [h.len_add, int32_length (by omega)]
    omega
  have hcopy : strcpy room s.text (s.comma ++ decimal s.next)
      = some (s.text ++ (s.comma ++ decimal s.next)) := by
    apply strcpy_of_room
    rw [h.text_append]
    omega
  obtain ⟨elem, bit, hbl⟩ := h.list
  have hint' : s.bl.state.baseBit + s.bl.state.maxBits ≤ 2147483648 := by
    rw [hbl]
    exact hint
  obtain ⟨elem', bit', hfind, hbefore⟩ :=
    findBit_before (hbl ▸ hwf.withCursor elem bit) hint' h.cursor
  rw [List.tail_cons] at hfind hbefore
  refine ⟨printed s (withCursor s.bl elem' bit') (firstOf rest),
    h.printed hbefore (by omega), ?_⟩
  have hp : s.next = p := h.next
  unfold printPass
  rw [if_neg hne]
  dsimp only
  rw [if_neg hcheck, Option.bind_eq_bind, bind_of_some hcopy, Option.bind_eq_bind,
    bind_of_some hfind]
  show (if int32 (s.next + 1) = firstOf rest
      then printRange room size (printed s (withCursor s.bl elem' bit') (firstOf rest)) s.next
      else some (.again (printed s (withCursor s.bl elem' bit') (firstOf rest)))) = _
  rw [hp]

/-- The page is printed: the cursor is before what is left. -/
structure PagePrinted (bl₀ : BitlistT) (s : PrintState) (spans : List Span) (rest : List Nat) :
    Prop where
  list : ∃ elem bit, s.bl = withCursor bl₀ elem bit
  text : s.text = pageText spans
  len : s.len = (pageText spans).length
  next : s.next = firstOf rest
  cursor : Before s.bl rest

/-- Everything is printed. -/
theorem Printing.page_done (h : Printing bl₀ s spans []) : PagePrinted bl₀ s spans [] where
  list := h.list
  text := h.text
  len := h.len
  next := h.next
  cursor := h.cursor

/-- The cursor goes back before the position that has no room. -/
theorem Printing.page_full (hwf : WellFormed bl₀)
    (hint : bl₀.state.baseBit + bl₀.state.maxBits ≤ 2147483648)
    (h : Printing bl₀ s spans (p :: rest)) (hne : spans ≠ []) :
    PagePrinted bl₀ { s with bl := setCursor s.bl (int32 (s.next - s.bl.state.baseBit - 1)) }
      spans (p :: rest) := by
  obtain ⟨elem, bit, hbl⟩ := h.list
  obtain ⟨q, hq, hpos⟩ := h.left
  obtain ⟨o, hqo, holt, hp, hfrom, -⟩ := exists_offset_of_numbers hq
  have hbase : s.bl.state.baseBit = bl₀.state.baseBit := by rw [hbl]; rfl
  -- the offset before the position, which is not the first of the list
  have hback : int32 (s.next - s.bl.state.baseBit - 1) = (o : Int) - 1 := by
    rw [h.next, firstOf, hbase, hp, int32_of_range] <;> omega
  have hfirst : 0 < o := by
    rcases hpos with hnil | hpos
    · exact absurd hnil hne
    · omega
  have hwf' : WellFormed s.bl := hbl ▸ hwf.withCursor elem bit
  obtain ⟨elem', bit', hcursor, hbefore⟩ :=
    before_setCursor hwf' hfirst (by rw [hbl]; exact holt.le)
  have hleft : numbersFrom s.bl o = p :: rest := by rw [hbl]; exact hfrom
  have hstate : setCursor s.bl (int32 (s.next - s.bl.state.baseBit - 1))
      = withCursor s.bl elem' bit' := by rw [hback, hcursor]
  rw [hstate]
  exact
    { list := ⟨elem', bit', by show withCursor s.bl elem' bit' = _; rw [hbl]; rfl⟩
      text := h.text
      len := h.len
      next := h.next
      cursor := hleft ▸ hbefore }

/-! ### Ranges -/

variable {block : Span}

/-- The bounds of a block that is still to come. -/
theorem Printing.block_bounds (h : Printing bl₀ s spans (block.numbers ++ rest)) :
    bl₀.state.baseBit ≤ block.first ∧ block.last < bl₀.state.baseBit + bl₀.state.maxBits := by
  obtain ⟨q, hq, -⟩ := h.left
  have hle := block.le
  have hfirst : block.first ∈ numbersFrom bl₀ q := by
    rw [hq, List.mem_append]
    exact Or.inl (Span.mem_numbers.mpr ⟨le_rfl, hle⟩)
  have hlast : block.last ∈ numbersFrom bl₀ q := by
    rw [hq, List.mem_append]
    exact Or.inl (Span.mem_numbers.mpr ⟨hle, le_rfl⟩)
  have hlow := (mem_numbersFrom hfirst).1
  have hhigh := (mem_numbersFrom hlast).2
  omega

/-- The first position of a block is in the buffer: the inner loop skips to the end of the
block. -/
theorem skipRange_block (hwf : WellFormed bl₀)
    (hint : bl₀.state.baseBit + bl₀.state.maxBits < 2147483584)
    (h : Printing bl₀ s (spans ++ [.single block.first])
      (List.range' (block.first + 1) (block.last - block.first) ++ rest))
    (hlow : bl₀.state.baseBit ≤ block.first)
    (hhigh : block.last < bl₀.state.baseBit + bl₀.state.maxBits) (hlt : block.first < block.last)
    (hends : block.Ends rest) :
    ∃ elem bit, skipRange s.bl block.first s.next
        = some (withCursor bl₀ elem bit, (block.last : Int), firstOf rest) ∧
      Before (withCursor bl₀ elem bit) rest.tail := by
  obtain ⟨elem, bit, hbl⟩ := h.list
  -- `next` is the second position of the block, and `k` more follow it
  obtain ⟨k, hk⟩ : ∃ k, block.last - block.first = k + 1 := ⟨block.last - block.first - 1, by omega⟩
  have hlast : block.last = block.first + 1 + k := by omega
  have hnext := h.next
  have hcursor := h.cursor
  rw [hk, List.range'_succ, List.cons_append] at hnext hcursor
  rw [List.tail_cons] at hcursor
  rw [firstOf] at hnext
  have hend : rest.head? ≠ some (block.first + 1 + k + 1) := by
    rwa [← hlast]
  have hwf' : WellFormed s.bl := hbl ▸ hwf.withCursor elem bit
  have hmax : s.bl.state.baseBit + s.bl.state.maxBits ≤ 2147483648 := by
    rw [hbl]
    exact hint.le.trans (by omega)
  have hfuel : k < s.bl.state.maxBits + 1 := by
    have hsame : s.bl.state.maxBits = bl₀.state.maxBits := by rw [hbl]; rfl
    omega
  obtain ⟨elem', bit', hloop, hbefore⟩ :=
    loop_skip hwf' hmax block.first hcursor (by omega) hend hfuel
  have hlist : withCursor s.bl elem' bit' = withCursor bl₀ elem' bit' := by
    rw [hbl, withCursor_withCursor]
  rw [hlist, ← hlast, ← hnext] at hloop
  rw [hlist] at hbefore
  exact ⟨elem', bit', hloop, hbefore⟩

/-- The second part of a range in the buffer. -/
theorem Printing.text_range {ps : List Nat}
    (h : Printing bl₀ s (spans ++ [.single block.first]) ps) (hlt : block.first < block.last) :
    s.text ++ '-' :: decimal block.last = pageText (spans ++ [block]) := by
  rw [h.text, pageText_range hlt]
  rfl

/-- The length that the size is tested against before the end of a range is printed. -/
theorem Printing.len_range {ps : List Nat}
    (h : Printing bl₀ s (spans ++ [.single block.first]) ps) (hlt : block.first < block.last) :
    s.len + (('-' :: decimal block.last).length : Int)
      = ((pageText (spans ++ [block])).length : Int) := by
  have happend : (s.text ++ '-' :: decimal block.last).length
      = (pageText (spans ++ [.single block.first])).length
        + ('-' :: decimal block.last).length := by
    rw [List.length_append, h.text]
  rw [← h.text_range hlt, happend, h.len, Nat.cast_add]

section Range
variable (hwf : WellFormed bl₀) (hint : bl₀.state.baseBit + bl₀.state.maxBits < 2147483584)
  (h : Printing bl₀ s (spans ++ [.single block.first])
    (List.range' (block.first + 1) (block.last - block.first) ++ rest))
  (hlow : bl₀.state.baseBit ≤ block.first)
  (hhigh : block.last < bl₀.state.baseBit + bl₀.state.maxBits) (hlt : block.first < block.last)
  (hends : block.Ends rest)
include hwf hint h hlow hhigh hlt hends

/-- The range has room. -/
theorem printRange_prints (hsize : size ≤ room) (hsmall : size < lengthLimit)
    (hfits : (pageText (spans ++ [block])).length < size) :
    ∃ t, printRange room size s block.first = some (.again t) ∧
      Printing bl₀ t (spans ++ [block]) rest := by
  obtain ⟨elem, bit, hskip, hbefore⟩ := skipRange_block hwf hint h hlow hhigh hlt hends
  have hlen : int32 (s.len + (('-' :: decimal block.last).length : Int))
      = ((pageText (spans ++ [block])).length : Int) := by
    rw [h.len_range hlt, int32_length (by omega)]
  -- The length that the source compares is that of the page with the block.
  have hcheck : int32 (s.len + (('-' :: decimal block.last).length : Int)) < (size : Int) := by
    rw [hlen]
    exact Int.ofNat_lt.mpr hfits
  have hcopy : strcpy room s.text ('-' :: decimal block.last)
      = some (s.text ++ '-' :: decimal block.last) := by
    apply strcpy_of_room
    rw [h.text_range hlt]
    omega
  refine ⟨{ s with
    bl := withCursor bl₀ elem bit
    text := s.text ++ '-' :: decimal block.last
    len := int32 (s.len + (('-' :: decimal block.last).length : Int))
    next := firstOf rest }, ?_, ?_⟩
  · unfold printRange
    rw [Option.bind_eq_bind, bind_of_some hskip]
    dsimp only
    rw [if_pos hcheck, Option.bind_eq_bind, bind_of_some hcopy]
  · -- the position behind the block is not the first of the list
    obtain ⟨q, hq, -⟩ := h.left
    have hmany : List.range' (block.first + 1) (block.last - block.first) ≠ [] := by
      rw [ne_eq, List.range'_eq_nil_iff]
      omega
    obtain ⟨q', hpos, hleft⟩ := exists_numbers_of_append hq hmany
    have hcomma : s.comma = separator (pageText (spans ++ [block])) := by
      rw [h.comma, separator, separator, if_neg, if_neg] <;>
        (rw [pageText_eq_nil_iff]; simp)
    exact
      { list := ⟨elem, bit, rfl⟩
        text := h.text_range hlt
        len := hlen
        comma := hcomma
        next := rfl
        cursor := hbefore
        left := ⟨q', hleft, Or.inr hpos⟩ }

/-- The range has no room: its first position stays on the page, and the cursor goes back
behind it. -/
theorem printRange_cut (hfull : size ≤ (pageText (spans ++ [block])).length)
    (hlimit : (pageText (spans ++ [block])).length < lengthLimit) :
    ∃ t, printRange room size s block.first = some (.done t) ∧
      PagePrinted bl₀ t (spans ++ [.single block.first])
        (List.range' (block.first + 1) (block.last - block.first) ++ rest) := by
  obtain ⟨elem, bit, hskip, -⟩ := skipRange_block hwf hint h hlow hhigh hlt hends
  have hcheck : ¬int32 (s.len + (('-' :: decimal block.last).length : Int)) < (size : Int) := by
    rw [h.len_range hlt, int32_length hlimit]
    omega
  obtain ⟨o, ho⟩ : ∃ o, block.first = bl₀.state.baseBit + o := Nat.exists_eq_add_of_le hlow
  have hback : int32 ((block.first : Int) - bl₀.state.baseBit) = ((o + 1 : Nat) : Int) - 1 := by
    rw [ho, int32_of_range] <;> omega
  -- what is left starts right behind the first position of the block
  obtain ⟨k, hk⟩ : ∃ k, block.last - block.first = k + 1 := ⟨block.last - block.first - 1, by omega⟩
  obtain ⟨q, hq, -⟩ := h.left
  rw [hk, List.range'_succ, List.cons_append] at hq ⊢
  obtain ⟨o', -, -, ho', hleft, -⟩ := exists_offset_of_numbers hq
  have hsame : o' = o + 1 := by omega
  subst hsame
  have hwf' := hwf.withCursor elem bit
  obtain ⟨elem', bit', hcursor, hbefore⟩ :=
    before_setCursor hwf' (Nat.succ_pos o) (by show o + 1 ≤ bl₀.state.maxBits; omega)
  have hnext : int32 ((block.first : Int) + 1) = ((block.first + 1 : Nat) : Int) :=
    int32_succ (by omega)
  refine ⟨{ s with
    bl := setCursor (withCursor bl₀ elem bit)
      (int32 ((block.first : Int) - (withCursor bl₀ elem bit).state.baseBit))
    next := int32 ((block.first : Int) + 1) }, ?_, ?_⟩
  · unfold printRange
    rw [Option.bind_eq_bind, bind_of_some hskip]
    dsimp only
    rw [if_neg hcheck]
  · have hstate : setCursor (withCursor bl₀ elem bit)
        (int32 ((block.first : Int) - (withCursor bl₀ elem bit).state.baseBit))
          = withCursor bl₀ elem' bit' := by
      show setCursor (withCursor bl₀ elem bit)
        (int32 ((block.first : Int) - bl₀.state.baseBit)) = _
      rw [hback, hcursor, withCursor_withCursor]
    rw [hstate]
    rw [numbersFrom_withCursor, withCursor_withCursor, hleft] at hbefore
    exact
      { list := ⟨elem', bit', rfl⟩
        text := h.text
        len := h.len
        next := hnext
        cursor := hbefore }

/-- The range makes the text too long for its length to be an `int`. -/
theorem printRange_overruns (hroom : room < lengthLimit)
    (hlimit : lengthLimit ≤ (pageText (spans ++ [block])).length)
    (hlen : (pageText (spans ++ [block])).length < 4294967296) :
    printRange room size s block.first = none := by
  obtain ⟨elem, bit, hskip, -⟩ := skipRange_block hwf hint h hlow hhigh hlt hends
  have hcheck : int32 (s.len + (('-' :: decimal block.last).length : Int)) < (size : Int) := by
    rw [h.len_range hlt]
    have hneg := int32_length_neg hlimit hlen
    omega
  have hcopy : strcpy room s.text ('-' :: decimal block.last) = none := by
    apply strcpy_of_no_room
    rw [h.text_range hlt]
    omega
  unfold printRange
  rw [Option.bind_eq_bind, bind_of_some hskip]
  dsimp only
  rw [if_pos hcheck, hcopy]
  rfl

end Range

/-! ### The pass over a block -/

section Block
variable (hwf : WellFormed bl₀) (hint : bl₀.state.baseBit + bl₀.state.maxBits < 2147483584)
  (h : Printing bl₀ s spans (block.numbers ++ rest)) (hends : block.Ends rest)
  (hsize : size ≤ room) (hsmall : size < lengthLimit)
include hwf hint h hsize hsmall

/-- The first position of a range is printed, and the pass goes on with the range. -/
theorem printPass_range (hlt : block.first < block.last)
    (hfits : (pageText (spans ++ [.single block.first])).length < size) :
    ∃ t, Printing bl₀ t (spans ++ [.single block.first])
        (List.range' (block.first + 1) (block.last - block.first) ++ rest) ∧
      printPass room size s = printRange room size t block.first := by
  obtain ⟨hlow, hhigh⟩ := h.block_bounds
  rw [block.numbers_eq_cons, List.cons_append] at h
  obtain ⟨t, ht, hpass⟩ := printPass_prints hwf (by omega) h hsize hsmall hfits
  have hnext : int32 ((block.first : Int) + 1)
      = firstOf (List.range' (block.first + 1) (block.last - block.first) ++ rest) := by
    obtain ⟨k, hk⟩ : ∃ k, block.last - block.first = k + 1 :=
      ⟨block.last - block.first - 1, by omega⟩
    rw [int32_succ (by omega), hk, List.range'_succ, List.cons_append, firstOf]
  rw [if_pos hnext] at hpass
  exact ⟨t, ht, hpass⟩

include hends

/-- A block that has room. -/
theorem printPass_block (hfits : (pageText (spans ++ [block])).length < size) :
    ∃ t, printPass room size s = some (.again t) ∧ Printing bl₀ t (spans ++ [block]) rest := by
  obtain ⟨hlow, hhigh⟩ := h.block_bounds
  have hfirst := (@length_pageText_single_le spans block).trans_lt hfits
  by_cases hlt : block.first < block.last
  · obtain ⟨t, ht, hpass⟩ := printPass_range hwf hint h hsize hsmall hlt hfirst
    obtain ⟨u, hrange, hu⟩ :=
      printRange_prints hwf hint ht hlow hhigh hlt hends hsize hsmall hfits
    exact ⟨u, hpass.trans hrange, hu⟩
  · -- a block of one position
    obtain ⟨p, rfl⟩ : ∃ p, block = .single p := by
      obtain ⟨first, last, hle⟩ := block
      simp only [not_lt] at hlt
      obtain rfl : first = last := le_antisymm hle hlt
      exact ⟨first, rfl⟩
    rw [Span.numbers_single, List.singleton_append] at h
    obtain ⟨t, ht, hpass⟩ := printPass_prints hwf (by omega) h hsize hsmall hfits
    have hstop : int32 ((p : Int) + 1) ≠ firstOf rest := by
      have hp : p < bl₀.state.baseBit + bl₀.state.maxBits := hhigh
      rw [int32_succ (by omega)]
      exact firstOf_ne hends
    rw [if_neg hstop] at hpass
    exact ⟨t, hpass, ht⟩

end Block

end Passes

/-! ### The call -/

section Call
variable {bl₀ bl : BitlistT} {room size : Nat} {begin : Bool} {ps : List Nat}

/-- A call of `bitlist_to_string` that begins with the positions `ps`. -/
structure Starts (bl₀ bl : BitlistT) (begin : Bool) (ps : List Nat) : Prop where
  find : ∃ elem bit, bitlistFindBit bl begin = some (withCursor bl₀ elem bit, firstOf ps) ∧
    Before (withCursor bl₀ elem bit) ps.tail
  left : ∃ q, numbersFrom bl₀ q = ps

/-- A call that begins starts with all set positions to come. -/
theorem starts_begin (hwf : WellFormed bl₀)
    (hint : bl₀.state.baseBit + bl₀.state.maxBits ≤ 2147483648) :
    Starts bl₀ bl₀ true (numbersFrom bl₀ 0) where
  find := findBit_start hwf hint
  left := ⟨0, rfl⟩

/-- A call that goes on starts with the positions the cursor is before. -/
theorem starts_before (hwf : WellFormed bl₀)
    (hint : bl₀.state.baseBit + bl₀.state.maxBits ≤ 2147483648) {elem bit : Nat}
    (hbefore : Before (withCursor bl₀ elem bit) ps) :
    Starts bl₀ (withCursor bl₀ elem bit) false ps where
  find := findBit_before (hwf.withCursor elem bit) hint hbefore
  left := by
    obtain ⟨q, -, hq⟩ := hbefore
    exact ⟨q, hq⟩

/-- The state at the start of the print loop. -/
def printStart (bl : BitlistT) (next : Int) : PrintState where
  bl := bl
  text := []
  len := 0
  comma := []
  next := next

/-- The first search of a call leads into the print loop with nothing printed. -/
theorem Starts.printing (h : Starts bl₀ bl begin ps) :
    ∃ elem bit, bitlistFindBit bl begin = some (withCursor bl₀ elem bit, firstOf ps) ∧
      Printing bl₀ (printStart (withCursor bl₀ elem bit) (firstOf ps)) [] ps := by
  obtain ⟨elem, bit, hfind, hbefore⟩ := h.find
  obtain ⟨q, hq⟩ := h.left
  exact ⟨elem, bit, hfind,
    { list := ⟨elem, bit, rfl⟩
      text := rfl
      len := rfl
      comma := rfl
      next := rfl
      cursor := hbefore
      left := ⟨q, hq, Or.inl rfl⟩ }⟩

section Loop
variable (hwf : WellFormed bl₀) (hint : bl₀.state.baseBit + bl₀.state.maxBits < 2147483584)
  (hsize : size ≤ room) (hsmall : size < lengthLimit)
include hwf hint hsize hsmall

/-- The passes over what is printed. -/
theorem loop_prints {s : PrintState} (hs : Printing bl₀ s [] ps) {spans : List Span}
    {rest : List Nat} (h : Prints size ps spans rest) (fuel : Nat) :
    ∃ t, loop (printPass room size) (fuel + spans.length) s = loop (printPass room size) fuel t ∧
      Printing bl₀ t spans rest := by
  induction h generalizing fuel with
  | start => exact ⟨s, rfl, hs⟩
  | @step spans block rest h hends hfits ih =>
      obtain ⟨t, hloop, ht⟩ := ih (fuel + 1)
      obtain ⟨u, hpass, hu⟩ := printPass_block hwf hint ht hends hsize hsmall hfits
      refine ⟨u, ?_, hu⟩
      rw [List.length_append, List.length_singleton,
        show fuel + (spans.length + 1) = fuel + 1 + spans.length by omega, hloop,
        loop_of_again hpass]

omit hwf hint hsize hsmall in
/-- No more blocks than positions. -/
theorem length_spans_le {spans : List Span} {rest : List Nat} (h : Prints size ps spans rest) :
    spans.length + rest.length ≤ ps.length := by
  induction h with
  | start => simp
  | @step spans block rest h hends hfits ih =>
      rw [block.numbers_eq_cons] at ih
      simp only [List.length_append, List.length_cons, List.length_nil] at ih ⊢
      omega

/-- The loop prints a page, with as much fuel as there are positions. -/
theorem loop_page {s : PrintState} (hs : Printing bl₀ s [] ps) {spans : List Span}
    {rest : List Nat} (h : Page size ps spans rest) (hno : ¬Overruns size lengthLimit ps)
    (hnumbers : HasRoom size ps) {fuel : Nat} (hfuel : ps.length < fuel) :
    ∃ t, loop (printPass room size) fuel s = some t ∧ PagePrinted bl₀ t spans rest := by
  cases h with
  | done h =>
      have hlen := length_spans_le h
      obtain ⟨k, rfl⟩ : ∃ k, fuel = k + 1 + spans.length := ⟨fuel - 1 - spans.length, by omega⟩
      obtain ⟨t, hloop, ht⟩ := loop_prints hwf hint hsize hsmall hs h (k + 1)
      exact ⟨t, by rw [hloop, loop_of_done (printPass_done ht)], ht.page_done⟩
  | @full _ p rest h hfull =>
      have hlen := length_spans_le h
      have hne : spans ≠ [] := (Page.full h hfull).spans_ne_nil hnumbers
      -- the text that has no room can be measured, or it would be an overrun
      have hlimit : (pageText (spans ++ [.single p])).length < lengthLimit := by
        by_contra hlong
        exact hno (.number h (by omega))
      obtain ⟨k, rfl⟩ : ∃ k, fuel = k + 1 + spans.length := ⟨fuel - 1 - spans.length, by omega⟩
      obtain ⟨t, hloop, ht⟩ := loop_prints hwf hint hsize hsmall hs h (k + 1)
      refine ⟨_, ?_, ht.page_full hwf (by omega) hne⟩
      rw [hloop, loop_of_done (printPass_full ht hfull hlimit)]
  | @cut spans block rest h hlt hends hfits hfull =>
      have hlen := length_spans_le h
      have hlimit : (pageText (spans ++ [block])).length < lengthLimit := by
        by_contra hlong
        exact hno (.range h hlt hends hfits (by omega))
      have hcons := block.numbers_eq_cons
      rw [hcons, List.length_append, List.length_cons] at hlen
      obtain ⟨k, rfl⟩ : ∃ k, fuel = k + 1 + spans.length := ⟨fuel - 1 - spans.length, by omega⟩
      obtain ⟨t, hloop, ht⟩ := loop_prints hwf hint hsize hsmall hs h (k + 1)
      obtain ⟨hlow, hhigh⟩ := ht.block_bounds
      obtain ⟨u, hu, hpass⟩ := printPass_range hwf hint ht hsize hsmall hlt hfits
      obtain ⟨v, hrange, hv⟩ := printRange_cut hwf hint hu hlow hhigh hlt hends hfull hlimit
      refine ⟨v, by rw [hloop, loop_of_done (hpass.trans hrange)], ?_⟩
      rw [hcons, List.tail_cons]
      exact hv

omit hwf hsize hsmall in
/-- A position has ten digits at most. -/
theorem length_digits_le_ten {s : PrintState} (hs : Printing bl₀ s [] ps) :
    ∀ p ∈ ps, (digits p).length ≤ 10 := by
  intro p hp
  obtain ⟨q, rfl, -⟩ := hs.left
  have hlt := (mem_numbersFrom hp).2
  exact length_digits_le (by omega) (by norm_num; omega)

/-- A text that no `int` measures does not fit in the buffer. -/
theorem loop_overruns {s : PrintState} (hs : Printing bl₀ s [] ps)
    (h : Overruns size lengthLimit ps) (hpos : 0 < size) (hroom : room < lengthLimit) {fuel : Nat}
    (hfuel : ps.length < fuel) : loop (printPass room size) fuel s = none := by
  have hdigits := length_digits_le_ten hint hs
  have hlimit : room < 2147483648 := hroom
  cases h with
  | @number spans p rest h hlong =>
      have hlen := length_spans_le h
      have hp := hdigits p (by rw [h.numbers_append]; simp)
      -- the text is one number longer than the buffer, so that its length is negative as an `int`
      have hshort : (pageText (spans ++ [.single p])).length < 4294967296 := by
        have htext := h.length_lt hpos
        have hmore := length_pageText_concat_le spans p
        omega
      obtain ⟨k, rfl⟩ : ∃ k, fuel = k + spans.length := ⟨fuel - spans.length, by omega⟩
      obtain ⟨t, hloop, ht⟩ := loop_prints hwf hint hsize hsmall hs h k
      rw [hloop, loop_of_none (printPass_overruns ht hroom hlong hshort)]
  | @range spans block rest h hlt hends hfits hlong =>
      have hlen := length_spans_le h
      have hmem : block.last ∈ block.numbers := Span.mem_numbers.mpr ⟨block.le, le_rfl⟩
      have hp := hdigits block.last (by rw [h.numbers_append]; simp [hmem])
      have hshort : (pageText (spans ++ [block])).length < 4294967296 := by
        rw [pageText_range hlt, List.length_append, List.length_cons]
        omega
      obtain ⟨k, rfl⟩ : ∃ k, fuel = k + spans.length := ⟨fuel - spans.length, by omega⟩
      obtain ⟨t, hloop, ht⟩ := loop_prints hwf hint hsize hsmall hs h k
      obtain ⟨hlow, hhigh⟩ := ht.block_bounds
      obtain ⟨u, hu, hpass⟩ := printPass_range hwf hint ht hsize hsmall hlt hfits
      have hfault : printRange room size u block.first = none :=
        printRange_overruns hwf hint hu hlow hhigh hlt hends hroom hlong hshort
      rw [hloop, loop_of_none (hpass.trans hfault)]

end Loop

/-- A call is its first search and then the print loop. The answer is the position that had no
room, or `bitlistInvalid` where the text is empty. -/
theorem toString_of_loop {elem bit : Nat} {next : Int} (hroom : 0 < room)
    (hfind : bitlistFindBit bl begin = some (withCursor bl₀ elem bit, next)) :
    bitlistToString room bl size begin
      = (loop (printPass room size) (bl₀.state.maxBits + 2)
          (printStart (withCursor bl₀ elem bit) next)).map fun t =>
            (t.bl, t.text, if t.len ≠ 0 then t.next else bitlistInvalid) := by
  have hempty : strcpy room [] [] = some [] := strcpy_of_room hroom
  unfold bitlistToString
  rw [Option.bind_eq_bind, bind_of_some hempty, Option.bind_eq_bind, bind_of_some hfind,
    Option.map_eq_bind]
  rfl

/-- The fuel of the print loop is enough. -/
theorem Starts.length_lt (h : Starts bl₀ bl begin ps) : ps.length < bl₀.state.maxBits + 2 := by
  obtain ⟨q, rfl⟩ := h.left
  have hle := @length_numbersFrom_le bl₀ q
  omega

/-- A call prints a page and leaves the cursor before the rest. -/
theorem toString_page (hwf : WellFormed bl₀)
    (hint : bl₀.state.baseBit + bl₀.state.maxBits < 2147483584) (hpos : 0 < size)
    (hsize : size ≤ room) (hsmall : size < lengthLimit) (hs : Starts bl₀ bl begin ps)
    {spans : List Span} {rest : List Nat} (h : Page size ps spans rest)
    (hno : ¬Overruns size lengthLimit ps) (hnumbers : HasRoom size ps) :
    ∃ elem bit, bitlistToString room bl size begin
        = some (withCursor bl₀ elem bit, pageText spans, firstOf rest) ∧
      Before (withCursor bl₀ elem bit) rest := by
  obtain ⟨elem, bit, hfind, hprinting⟩ := hs.printing
  obtain ⟨t, hloop, ht⟩ := loop_page hwf hint hsize hsmall hprinting h hno hnumbers hs.length_lt
  obtain ⟨elem', bit', hbl⟩ := ht.list
  have hresult : (if t.len ≠ 0 then t.next else bitlistInvalid) = firstOf rest := by
    by_cases hlen : t.len = 0
    · -- an empty page leaves nothing
      rw [if_neg (not_not.mpr hlen)]
      rw [ht.len, Int.natCast_eq_zero, List.length_eq_zero_iff, pageText_eq_nil_iff] at hlen
      cases rest with
      | nil => rfl
      | cons p rest => exact absurd hlen (h.spans_ne_nil hnumbers)
    · rw [if_pos hlen, ht.next]
  have hcursor := ht.cursor
  rw [hbl] at hcursor
  refine ⟨elem', bit', ?_, hcursor⟩
  rw [toString_of_loop (by omega) hfind, hloop, Option.map_some, hresult, hbl, ht.text]

/-- A call that meets a text that no `int` measures writes beyond the buffer. -/
theorem toString_overruns (hwf : WellFormed bl₀)
    (hint : bl₀.state.baseBit + bl₀.state.maxBits < 2147483584) (hpos : 0 < size)
    (hsize : size ≤ room) (hroom : room < lengthLimit) (hs : Starts bl₀ bl begin ps)
    (h : Overruns size lengthLimit ps) : bitlistToString room bl size begin = none := by
  obtain ⟨elem, bit, hfind, hprinting⟩ := hs.printing
  rw [toString_of_loop (by omega) hfind,
    loop_overruns hwf hint hsize (hsize.trans_lt hroom) hprinting h hpos hroom
      hs.length_lt, Option.map_none]

end Call

end MyTestFiles.Proofs.Bitlist
