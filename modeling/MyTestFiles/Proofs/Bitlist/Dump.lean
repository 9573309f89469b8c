import MyTestFiles.Lib.Runs
import MyTestFiles.Proofs.Bitlist.Printer

/-!
# `MyTestFiles.Proofs.Bitlist.Dump`: `bitlist_dump` and `bitlist_to_string` print the same runs

`bitlist_dump` keeps one range open, from `begin` to `end`. `Dumping` is the state of its loop:
the closed ranges are printed with a comma behind each, and the next position makes the open
one longer or closes it, just as `runsFrom` does. Before the first position `end` is less than
`begin`, so that nothing is printed for a range that is not there.

`bitlist_to_string` detects a range by reading ahead. With room for everything it prints the
blocks of `runs` too (`toString_runs`), so that the two texts differ in the numerals only
(`dump_toString_agree`).

* `dump_runs` is the loop over all positions: after it the closed ranges and the open one are the
  blocks of the list (`Lib.Runs`), and what is behind the loop prints the last of them.
* `toString_runs` uses the printer of `Proofs.Bitlist.Printer`. With a size that has room for all
  of the text a single page holds everything, so it is the whole list of blocks.
* The numerals are decimal in one text and hexadecimal in the other, with the prefix that the
  source gives them. Everything else of the two texts is the same function of the blocks.
-/

set_option autoImplicit false

namespace MyTestFiles.Proofs.Bitlist

open MyTestFiles.Lib
open MyTestFiles.Bitlist

/-- A numeral of `bitlist_dump`. -/
def hexNumeral (p : Nat) : List Char := '0' :: 'x' :: Nat.toDigits 16 p

/-! ### The open range -/

section Ranges
variable {block : Span}

/-- The hexadecimal numeral of an unsigned number. -/
theorem hexadecimal_natCast {p : Nat} (h : p < 4294967296) : hexadecimal p = hexNumeral p := by
  rw [hexadecimal, uint32_natCast h, hexNumeral]

/-- What is printed for a range that is open. -/
theorem dumpRange_block (h : block.last < 4294967296) (comma : List Char) :
    dumpRange block.first block.last comma = block.textWith hexNumeral ++ comma := by
  have hle := block.le
  unfold dumpRange
  rw [hexadecimal_natCast h, hexadecimal_natCast (by omega)]
  by_cases hlt : block.first < block.last
  · rw [if_pos (Int.ofNat_lt.mpr hlt), Span.textWith, if_pos hlt, List.append_assoc,
      List.cons_append]
  · have heq : block.first = block.last := by omega
    rw [if_neg (by omega), if_pos (by rw [heq]), Span.textWith, if_neg hlt]

/-- Nothing is printed before the first position. -/
theorem dumpRange_empty {bit : Int} (hlow : -2147483648 < bit) (hhigh : bit < 2147483648)
    (comma : List Char) : dumpRange bit (int32 (bit - 1)) comma = [] := by
  have hlast : int32 (bit - 1) = bit - 1 := int32_of_range (by omega) (by omega)
  rw [dumpRange, hlast, if_neg (by omega), if_neg (by omega)]

end Ranges

/-! ### The loop of `bitlist_dump` -/

/-- The ranges `closed` are printed, `block` is open, and the positions `ps` are still to
come. -/
structure Dumping (bl₀ : BitlistT) (s : DumpState) (closed : List Span) (block : Span)
    (ps : List Nat) : Prop where
  list : ∃ elem bit, s.bl = withCursor bl₀ elem bit
  text : s.text = closedText hexNumeral closed
  begin : s.begin = block.first
  last : s.last = block.last
  previous : s.previous = block.last
  bit : s.bit = firstOf ps
  bound : block.last < bl₀.state.baseBit + bl₀.state.maxBits
  left : ∃ q, numbersFrom bl₀ q = ps

section Dump
variable {bl bl₀ : BitlistT} {s : DumpState} {closed : List Span} {block : Span} {p : Nat}
  {ps : List Nat}

/-- `bitlist_find_after` at a set position returns the next one. -/
theorem findAfter_number (h : WellFormed bl)
    (hint : bl.state.baseBit + bl.state.maxBits ≤ 2147483648) {q : Nat}
    (hq : numbersFrom bl q = p :: ps) :
    ∃ elem bit, bitlistFindAfter bl p = some (withCursor bl elem bit, firstOf ps) := by
  obtain ⟨o, -, ho, rfl, -, htail⟩ := exists_offset_of_numbers hq
  obtain ⟨elem, bit, hcall⟩ := findAfter_of_valid h hint ho
  refine ⟨elem, bit, ?_⟩
  -- the least set position behind it is the first of those to come
  rw [find?_setPositions h ho, positionsFrom_eq_map, htail] at hcall
  rw [Nat.cast_add, hcall]
  cases ps with
  | nil => rfl
  | cons r rest => rfl

/-- The state behind a pass that closes the open range. -/
def dumpClosed (s : DumpState) (bl : BitlistT) (bit : Int) : DumpState where
  bl := bl
  text := s.text ++ dumpRange s.begin s.last [',']
  bit := bit
  previous := s.bit
  begin := s.bit
  last := s.bit

/-- The state behind a pass that makes it longer. -/
def dumpExtended (s : DumpState) (bl : BitlistT) (bit : Int) : DumpState where
  bl := bl
  text := s.text
  bit := bit
  previous := s.bit
  begin := s.begin
  last := s.bit

/-- A pass prints the open range where the next position does not follow it, and makes it longer
otherwise. -/
theorem dumpPass_of_find (hbit : s.bit ≠ bitlistInvalid) {bit : Int}
    (hfind : bitlistFindAfter s.bl s.bit = some (bl, bit)) :
    dumpPass s = some (.again
      (if s.bit ≠ int32 (s.previous + 1) then dumpClosed s bl bit else dumpExtended s bl bit)) := by
  unfold dumpPass
  rw [if_neg hbit]
  by_cases hnext : s.bit ≠ int32 (s.previous + 1)
  · rw [if_pos hnext, if_pos hnext]
    dsimp only
    exact bind_of_some hfind
  · rw [if_neg hnext, if_neg hnext]
    dsimp only
    exact bind_of_some hfind

/-- Nothing is to come. -/
theorem dumpPass_done (hbit : s.bit = bitlistInvalid) : dumpPass s = some (.done s) := by
  unfold dumpPass
  rw [if_pos hbit]

section Passes
variable (hwf : WellFormed bl₀) (hint : bl₀.state.baseBit + bl₀.state.maxBits < 2147483584)
include hwf hint

/-- One pass at the position `p` of the list. -/
theorem dumpPass_number (hlist : ∃ elem bit, s.bl = withCursor bl₀ elem bit)
    (hbit : s.bit = p) {q : Nat} (hq : numbersFrom bl₀ q = p :: ps) :
    ∃ elem bit, dumpPass s = some (.again
      (if s.bit ≠ int32 (s.previous + 1) then dumpClosed s (withCursor bl₀ elem bit) (firstOf ps)
        else dumpExtended s (withCursor bl₀ elem bit) (firstOf ps))) := by
  obtain ⟨elem, bit, hbl⟩ := hlist
  have hne : s.bit ≠ bitlistInvalid := by
    rw [hbit]
    exact firstOf_cons_ne p ps
  have hq' : numbersFrom (withCursor bl₀ elem bit) q = p :: ps := hq
  obtain ⟨elem', bit', hfind⟩ := findAfter_number (hwf.withCursor elem bit) (by
    show bl₀.state.baseBit + bl₀.state.maxBits ≤ 2147483648
    omega) hq'
  rw [withCursor_withCursor, ← hbl, ← hbit] at hfind
  exact ⟨elem', bit', dumpPass_of_find hne hfind⟩

/-- A pass keeps the invariant: it moves on in `runsFrom`. -/
theorem Dumping.step (h : Dumping bl₀ s closed block (p :: ps)) :
    ∃ t closed' block', dumpPass s = some (.again t) ∧ Dumping bl₀ t closed' block' ps ∧
      closed' ++ runsFrom block' ps = closed ++ runsFrom block (p :: ps) := by
  obtain ⟨q, hq⟩ := h.left
  obtain ⟨elem, bit, hpass⟩ := dumpPass_number hwf hint h.list h.bit hq
  obtain ⟨o, -, ho, hp, -, htail⟩ := exists_offset_of_numbers hq
  have hbound := h.bound
  have hsucc : int32 (s.previous + 1) = ((block.last + 1 : Nat) : Int) := by
    rw [h.previous, int32_succ (by omega)]
  have hbit : s.bit = p := h.bit
  by_cases hnext : p = block.last + 1
  · -- the position is the neighbour of the open range
    subst hnext
    rw [if_neg (by rw [hbit, hsucc]; exact not_not.mpr rfl)] at hpass
    refine ⟨_, closed, block.extend, hpass, ?_, by rw [runsFrom_extend]⟩
    exact
      { list := ⟨elem, bit, rfl⟩
        text := h.text
        begin := h.begin
        last := hbit
        previous := hbit
        bit := rfl
        bound := by
          show block.last + 1 < bl₀.state.baseBit + bl₀.state.maxBits
          omega
        left := ⟨o + 1, htail⟩ }
  -- The open range is printed, and the position opens the next one.
  · have hother : s.bit ≠ int32 (s.previous + 1) := by
      rw [hbit, hsucc]
      exact fun heq => hnext (Int.ofNat_inj.mp heq)
    rw [if_pos hother] at hpass
    refine ⟨_, closed ++ [block], .single p, hpass, ?_, ?_⟩
    · exact
        { list := ⟨elem, bit, rfl⟩
          text := by
            show s.text ++ dumpRange s.begin s.last [',']
              = closedText hexNumeral (closed ++ [block])
            rw [h.text, h.begin, h.last, dumpRange_block (by omega), closedText_concat]
          begin := hbit
          last := hbit
          previous := hbit
          bit := rfl
          bound := by
            show p < bl₀.state.baseBit + bl₀.state.maxBits
            omega
          left := ⟨o + 1, htail⟩ }
    · rw [runsFrom_close hnext, List.append_assoc, List.singleton_append]

/-- The loop closes all ranges but the last. -/
theorem loop_dump (h : Dumping bl₀ s closed block ps) {fuel : Nat} (hfuel : ps.length < fuel) :
    ∃ t init last, loop dumpPass fuel s = some t ∧ Dumping bl₀ t init last [] ∧
      init ++ [last] = closed ++ runsFrom block ps := by
  induction ps generalizing s closed block fuel with
  | nil =>
      obtain ⟨fuel, rfl⟩ : ∃ f, fuel = f + 1 := ⟨fuel - 1, by omega⟩
      exact ⟨s, closed, block, loop_of_done (dumpPass_done h.bit) fuel, h, rfl⟩
  | cons p ps ih =>
      rw [List.length_cons] at hfuel
      obtain ⟨fuel, rfl⟩ : ∃ f, fuel = f + 1 := ⟨fuel - 1, by omega⟩
      obtain ⟨t, closed', block', hpass, ht, hruns⟩ := h.step hwf hint
      obtain ⟨u, init, last, hloop, hu, hall⟩ := ih ht (by omega : ps.length < fuel)
      exact ⟨u, init, last, by rw [loop_of_again hpass, hloop], hu, hall.trans hruns⟩

omit hwf in
/-- What is printed behind the loop. -/
theorem Dumping.text_append (h : Dumping bl₀ s closed block []) :
    s.text ++ dumpRange s.begin s.last [] = spansText hexNumeral (closed ++ [block]) := by
  have hbound := h.bound
  rw [h.text, h.begin, h.last, dumpRange_block (by omega), List.append_nil, spansText_concat]

/-- The state at the start of the loop. -/
def dumpStart (bl : BitlistT) (bit : Int) : DumpState where
  bl := bl
  text := []
  bit := bit
  previous := int32 (bit - 2)
  begin := bit
  last := int32 (bit - 1)

omit hint in
/-- The first position opens the first range, and nothing is printed for it yet. -/
theorem dumping_first {elem bit : Nat}
    (hint : bl₀.state.baseBit + bl₀.state.maxBits < 2147483584)
    (hq : numbersFrom bl₀ 0 = p :: ps) :
    ∃ t, dumpPass (dumpStart (withCursor bl₀ elem bit) p) = some (.again t) ∧
      Dumping bl₀ t [] (.single p) ps := by
  obtain ⟨o, -, ho, hp, -, htail⟩ := exists_offset_of_numbers hq
  have hlist : ∃ e b, (dumpStart (withCursor bl₀ elem bit) p).bl = withCursor bl₀ e b :=
    ⟨elem, bit, rfl⟩
  obtain ⟨elem', bit', hpass⟩ := dumpPass_number hwf hint hlist rfl hq
  -- `previous` is two before the position
  have hother : (dumpStart (withCursor bl₀ elem bit) p).bit
      ≠ int32 ((dumpStart (withCursor bl₀ elem bit) p).previous + 1) := by
    show (p : Int) ≠ int32 (int32 ((p : Int) - 2) + 1)
    rw [int32_int32_add, int32_of_range] <;> omega
  rw [if_pos hother] at hpass
  refine ⟨_, hpass, ?_⟩
  exact
    { list := ⟨elem', bit', rfl⟩
      text := by
        show [] ++ dumpRange p (int32 ((p : Int) - 1)) [','] = []
        rw [dumpRange_empty (by omega) (by omega), List.append_nil]
      begin := rfl
      last := rfl
      previous := rfl
      bit := rfl
      bound := by
        show p < bl₀.state.baseBit + bl₀.state.maxBits
        omega
      left := ⟨o + 1, htail⟩ }

/-- `bitlist_dump` prints the runs of the set positions. -/
theorem dump_runs : ∃ elem bit, bitlistDump bl₀
    = some (withCursor bl₀ elem bit, spansText hexNumeral (runs (numbersFrom bl₀ 0))) := by
  obtain ⟨elem, bit, hfind, -⟩ := findBit_start hwf (by omega)
  have hdump : bitlistDump bl₀ = (loop dumpPass (bl₀.state.maxBits + 1)
      (dumpStart (withCursor bl₀ elem bit) (firstOf (numbersFrom bl₀ 0)))).map fun s =>
        (s.bl, s.text ++ dumpRange s.begin s.last []) := by
    unfold bitlistDump bitlistFindFirst
    rw [Option.bind_eq_bind, bind_of_some hfind, Option.map_eq_bind]
    rfl
  have hlen := @length_numbersFrom_le bl₀ 0
  cases hq : numbersFrom bl₀ 0 with
  -- no position: `end` is less than `begin`, and nothing is printed at all
  | nil =>
      refine ⟨elem, bit, ?_⟩
      rw [hq] at hdump
      rw [hdump, loop_of_done (dumpPass_done rfl), Option.map_some]
      rfl
  | cons p ps =>
      rw [hq] at hdump hlen
      rw [List.length_cons] at hlen
      -- the first pass opens a range, and the loop goes on from there
      obtain ⟨t, hpass, ht⟩ := @dumping_first _ _ _ hwf elem bit hint hq
      obtain ⟨u, init, last, hloop, hu, hall⟩ :=
        loop_dump hwf hint ht (by omega : ps.length < bl₀.state.maxBits)
      obtain ⟨elem', bit', hbl⟩ := hu.list
      refine ⟨elem', bit', ?_⟩
      rw [hdump, firstOf, loop_of_again hpass, hloop, Option.map_some, hbl, hu.text_append hint,
        hall]
      rfl

/-! ### The call of `bitlist_to_string` -/

/-- With room for everything, `bitlist_to_string` prints the runs too. -/
theorem toString_runs {room size : Nat} (hsize : size ≤ room) (hsmall : size < lengthLimit)
    (hfits : (spansText digits (runs (numbersFrom bl₀ 0))).length < size) :
    ∃ elem bit, bitlistToString room bl₀ size true = some (withCursor bl₀ elem bit,
      spansText digits (runs (numbersFrom bl₀ 0)), bitlistInvalid) := by
  rw [← pageText_eq_spansText] at hfits ⊢
  -- all positions are on one page
  have hprints := prints_runs hfits
  have hstart := starts_begin hwf (by omega)
  have hlen := length_spans_le hprints
  have hfuel := hstart.length_lt
  obtain ⟨elem, bit, hfind, hprinting⟩ := hstart.printing
  obtain ⟨k, hk⟩ : ∃ k, bl₀.state.maxBits + 2 = k + 1 + (runs (numbersFrom bl₀ 0)).length :=
    ⟨bl₀.state.maxBits + 1 - (runs (numbersFrom bl₀ 0)).length, by omega⟩
  obtain ⟨t, hloop, ht⟩ := loop_prints hwf hint hsize hsmall hprinting hprints (k + 1)
  obtain ⟨elem', bit', hbl⟩ := ht.list
  have hnext : t.next = bitlistInvalid := ht.next
  refine ⟨elem', bit', ?_⟩
  rw [toString_of_loop (by omega) hfind, hk, hloop, loop_of_done (printPass_done ht),
    Option.map_some, hnext, ite_self, hbl, ht.text]

/-- The two printers agree. There are blocks that hold the set positions in ascending order,
each once, with a gap between two of them. `bitlist_dump` prints them in hexadecimal, and one
call of `bitlist_to_string` with room for all of them prints them in decimal. -/
theorem dump_toString_agree : ∃ spans : List Span,
    (spans.flatMap Span.numbers).map (fun (p : Nat) => (p : Int)) = setPositions bl₀ ∧
    spans.IsChain (fun s t => s.last + 1 < t.first) ∧
    (∃ elem bit, bitlistDump bl₀ = some (withCursor bl₀ elem bit, spansText hexNumeral spans)) ∧
    ∀ room size : Nat, size ≤ room → size < lengthLimit →
      (spansText digits spans).length < size →
      ∃ elem bit, bitlistToString room bl₀ size true
        = some (withCursor bl₀ elem bit, spansText digits spans, bitlistInvalid) := by
  refine ⟨runs (numbersFrom bl₀ 0), ?_, ?_, dump_runs hwf hint, ?_⟩
  · rw [flatMap_numbers_runs, setPositions_eq_positionsFrom hwf, positionsFrom_eq_map]
  · -- the positions ascend
    apply isChain_runs
    rw [numbersFrom, List.pairwise_map]
    exact positions_pairwise.imp fun hlt => by omega
  · intro room size hsize hsmall hfits
    exact toString_runs hwf hint hsize hsmall hfits

end Passes

/-- A run over the border of two words, and a set bit at each end. -/
theorem dump_toString_agree_forty_bits :
    (∃ elem bit, bitlistDump ⟨⟨2, 40, 10, 0, 0⟩, [0xC0000001, 0x81]⟩
      = some (withCursor ⟨⟨2, 40, 10, 0, 0⟩, [0xC0000001, 0x81]⟩ elem bit,
          "0xa,0x28-0x2a,0x31".toList)) ∧
    ∃ elem bit, bitlistToString 20 ⟨⟨2, 40, 10, 0, 0⟩, [0xC0000001, 0x81]⟩ 12 true
      = some (withCursor ⟨⟨2, 40, 10, 0, 0⟩, [0xC0000001, 0x81]⟩ elem bit,
          "10,40-42,49".toList, -1) := by
  have hwf : WellFormed ⟨⟨2, 40, 10, 0, 0⟩, [0xC0000001, 0x81]⟩ :=
    ⟨by decide, by decide, by decide⟩
  have hpos : setPositions ⟨⟨2, 40, 10, 0, 0⟩, [0xC0000001, 0x81]⟩
      = [10, 40, 41, 42, 49].map fun (p : Nat) => (p : Int) := by decide
  obtain ⟨spans, hnumbers, hchain, hdump, htext⟩ := dump_toString_agree hwf (by decide)
  rw [hpos] at hnumbers
  -- the blocks are the runs of the five positions
  have hspans := eq_runs hchain
  rw [List.map_injective_iff.mpr Int.ofNat_injective hnumbers] at hspans
  have hhex : spansText hexNumeral spans = "0xa,0x28-0x2a,0x31".toList := by
    rw [hspans]
    decide
  have hdec : spansText digits spans = "10,40-42,49".toList := by
    rw [hspans]
    decide
  rw [hhex] at hdump
  rw [hdec] at htext
  exact ⟨hdump, htext 20 12 (by decide) (by decide) (by decide)⟩

end Dump

end MyTestFiles.Proofs.Bitlist
