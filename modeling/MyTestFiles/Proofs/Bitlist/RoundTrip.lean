import MyTestFiles.Proofs.Bitlist.Grammar
import MyTestFiles.Proofs.Bitlist.Printer

/-!
# `MyTestFiles.Proofs.Bitlist.RoundTrip`: the pages of a bit list carry exactly its bits

A caller that wants the whole text of a list calls `bitlist_to_string` until it returns
`BITLIST_INVALID` (`printPages`), and so does `bitlist_nv_write`. `PagingLaw` and
`NvWriteLaw` are the contracts: the calls come to an end, the texts have room and carry the
set positions in order, each once, and `bitlist_from_string` makes the set of them again.

`paging_iff` says that the laws hold for every list and every size for which each position
has room, unless a text on the way is too long for its length to be an `int`. That takes a
size close to the largest `int` (`not_pagesOverrun_of_size`).

* `callsPass` is one call in a caller's loop. The two callers differ in what they do with a page
  (`emit`): one keeps it, the other writes it between a prefix and a suffix.
* `headerList` is the list of the header's own example, and shows that the contracts are met
  there.
* `sparseList` has every other bit set, so its text is as long as a text can be. With enough bits
  it overruns any `int`, and `tenDigits` is one such list.
-/

set_option autoImplicit false

namespace MyTestFiles.Proofs.Bitlist

open MyTestFiles.Lib
open MyTestFiles.Bitlist

/-! ### The calls -/

/-- One call of `bitlist_to_string` in a loop that goes on until `BITLIST_INVALID`. The state
is the list, `begin` and the lines that the texts so far were made into. -/
def callsPass (room : Nat) (size : Int) (emit : List Char → List (List Char))
    (s : BitlistT × Bool × List (List Char)) :
    Option (Pass (BitlistT × Bool × List (List Char)) (BitlistT × List (List Char))) := do
  let (bl, begin, lines) := s
  let (bl, buf, i) ← bitlistToString room bl size begin
  if i ≠ bitlistInvalid then some (.again (bl, false, lines ++ emit buf))
  else some (.done (bl, lines ++ emit buf))

/-- The texts of all calls, with a buffer of `size` characters. -/
def printPages (size : Nat) (bl : BitlistT) : Option (BitlistT × List (List Char)) :=
  loop (callsPass size size fun buf => [buf]) (bl.state.maxBits + 1) (bl, true, [])

/-- `bitlist_from_string` on one text after the other, as long as it returns TRUE. -/
def feed (malloc : Bool) (bl : BitlistT) (texts : List (List Char)) : Option BitlistT :=
  texts.foldlM (fun bl text => do
    let (bl, result, _) ← bitlistFromString malloc bl text
    if result then some bl else none) bl

/-- The texts carry the set positions of a list, which ascend: each text is a number list of
the next ones of them. -/
def Carries (bl : BitlistT) (texts : List (List Char)) : Prop :=
  (setPositions bl).Pairwise (· < ·) ∧ ∃ parts : List (List Int),
    parts.flatten = setPositions bl ∧
    List.Forall₂ (fun text part => ∃ items, text = listText items ∧
      (∀ item ∈ items, item.WellFormed) ∧
      ∀ p, p ∈ part ↔ ∃ item ∈ items, item.Denotes mathValue p) texts parts

/-- The law of `bitlist_to_string` and `bitlist_from_string` together. -/
def PagingLaw (n b : Nat) (bl : BitlistT) (size : Nat) : Prop :=
  ∃ bl' chunks, printPages size bl = some (bl', chunks) ∧
    (∀ chunk ∈ chunks, chunk.length < size) ∧
    Carries bl chunks ∧
    ∀ malloc memory fresh, memory.bits.length = (n + 31) / 32 →
      bitlistClearall memory n b = some fresh →
      ∃ back, feed malloc fresh chunks = some back ∧
        ∀ p, bitlistTest back p = bitlistTest bl p

/-- The law of `bitlist_nv_write`, where `maxlen` leaves `size` characters and there is
memory for a buffer. -/
def NvWriteLaw (bl : BitlistT) (size : Nat) : Prop :=
  ∀ (malloc : Bool) (linePrefix lineSuffix : List Char) (maxlen : Int),
    maxlen - (linePrefix.length + 1 + lineSuffix.length) = size → malloc = true ∨ size ≤ 80 →
    ∃ bl' lines chunks, bitlistNvWrite malloc bl linePrefix lineSuffix maxlen
        = some (bl', true, lines) ∧
      lines = chunks.map (fun chunk => linePrefix ++ [' '] ++ chunk ++ lineSuffix) ∧
      (∀ line ∈ lines, (line.length : Int) ≤ maxlen) ∧
      Carries bl chunks

/-! ### The loop of the calls -/

section Calls
variable {bl₀ bl : BitlistT} {room size : Nat} {begin : Bool} {ps : List Nat}
  {emit : List Char → List (List Char)} {lines : List (List Char)}

/-- A call of the printer in the callers' loop. The loop goes on until the printer answers
`BITLIST_INVALID`. -/
theorem callsPass_of_call {bl' : BitlistT} {buf : List Char} {i : Int}
    (hcall : bitlistToString room bl size begin = some (bl', buf, i)) :
    callsPass room size emit (bl, begin, lines)
      = if i ≠ bitlistInvalid then some (.again (bl', false, lines ++ emit buf))
        else some (.done (bl', lines ++ emit buf)) := by
  unfold callsPass
  exact bind_of_some hcall

/-- A call that writes outside its buffer ends the loop. -/
theorem callsPass_of_none (hcall : bitlistToString room bl size begin = none) :
    callsPass room size emit (bl, begin, lines) = none := by
  unfold callsPass
  dsimp only
  rw [hcall]
  rfl

variable (hwf : WellFormed bl₀) (hint : bl₀.state.baseBit + bl₀.state.maxBits < 2147483584)
  (hpos : 0 < size) (hsize : size ≤ room) (hroom : room < lengthLimit)
include hwf hint hpos hsize hroom

/-- The calls print the pages of the list. -/
theorem loop_calls {pages : List (List Span)} (h : Pages size ps pages)
    (hno : ¬PagesOverrun size lengthLimit ps) (hnumbers : HasRoom size ps)
    (hs : Starts bl₀ bl begin ps) {fuel : Nat} (hfuel : pages.length ≤ fuel) :
    ∃ elem bit, loop (callsPass room size emit) fuel (bl, begin, lines)
      = some (withCursor bl₀ elem bit, lines ++ (pages.map pageText).flatMap emit) := by
  induction h generalizing bl begin lines fuel with
  | @last ps spans h =>
      obtain ⟨fuel, rfl⟩ : ∃ f, fuel = f + 1 := ⟨fuel - 1, by simp at hfuel; omega⟩
      obtain ⟨elem, bit, hcall, -⟩ :=
        toString_page hwf hint hpos hsize (hsize.trans_lt hroom) hs h
          (fun hover => hno (.here hover)) hnumbers
      have hpass := @callsPass_of_call _ _ _ _ emit lines _ _ _ hcall
      have hend : ¬firstOf [] ≠ bitlistInvalid := not_not.mpr rfl
      rw [if_neg hend] at hpass
      refine ⟨elem, bit, ?_⟩
      rw [loop_of_done hpass fuel, List.map_cons, List.map_nil, List.flatMap_singleton]
  | @more ps spans p rest pages h htail ih =>
      obtain ⟨fuel, rfl⟩ : ∃ f, fuel = f + 1 := ⟨fuel - 1, by simp at hfuel; omega⟩
      obtain ⟨elem, bit, hcall, hbefore⟩ :=
        toString_page hwf hint hpos hsize (hsize.trans_lt hroom) hs h
          (fun hover => hno (.here hover)) hnumbers
      have hpass := @callsPass_of_call _ _ _ _ emit lines _ _ _ hcall
      rw [if_pos (firstOf_cons_ne p rest)] at hpass
      -- the next call begins where this page ends
      obtain ⟨elem', bit', hloop⟩ := @ih _ _ (lines ++ emit (pageText spans))
        (fun hover => hno (.later h hover)) (hnumbers.of_page h)
        (starts_before hwf (by omega) hbefore) fuel (by simpa using hfuel)
      refine ⟨elem', bit', ?_⟩
      rw [loop_of_again hpass, hloop, List.map_cons, List.flatMap_cons, List.append_assoc]

/-- A text that no `int` measures, on any page. -/
theorem loop_calls_overrun (h : PagesOverrun size lengthLimit ps) (hnumbers : HasRoom size ps)
    (hs : Starts bl₀ bl begin ps) (fuel : Nat) :
    loop (callsPass room size emit) fuel (bl, begin, lines) = none := by
  induction h generalizing bl begin lines fuel with
  | here h =>
      exact loop_of_none (callsPass_of_none (toString_overruns hwf hint hpos hsize hroom hs h)) fuel
  | @later ps spans p rest h htail ih =>
      by_cases hover : Overruns size lengthLimit ps
      · exact loop_of_none
          (callsPass_of_none (toString_overruns hwf hint hpos hsize hroom hs hover)) fuel
      · obtain ⟨elem, bit, hcall, hbefore⟩ :=
          toString_page hwf hint hpos hsize (hsize.trans_lt hroom) hs h hover hnumbers
        have hpass := @callsPass_of_call _ _ _ _ emit lines _ _ _ hcall
        rw [if_pos (firstOf_cons_ne p rest)] at hpass
        cases fuel with
        | zero => rfl
        | succ fuel =>
            rw [loop_of_again hpass]
            exact ih (hnumbers.of_page h) (starts_before hwf (by omega) hbefore) fuel

end Calls

/-! ### What the texts carry -/

section Texts
variable {n b : Nat} {bl : BitlistT} {size : Nat} {pages : List (List Span)}

/-- Blocks of the set positions, in order, carry them. -/
theorem carries_of_numbers (hwf : WellFormed bl)
    (h : pages.flatMap (List.flatMap Span.numbers) = numbersFrom bl 0) :
    Carries bl (pages.map pageText) := by
  refine ⟨setPositions_pairwise hwf,
    pages.map fun spans => (spans.flatMap Span.numbers).map fun (i : Nat) => (i : Int), ?_, ?_⟩
  · rw [setPositions_eq_positionsFrom hwf, positionsFrom_eq_map, ← h, List.map_flatMap,
      List.flatMap_def]
  · rw [List.forall₂_map_left_iff, List.forall₂_map_right_iff, List.forall₂_same]
    intro spans _
    refine ⟨spans.map Span.item, rfl, items_wellFormed spans, ?_⟩
    intro p
    rw [items_denote, List.mem_map]

/-- All numbers are positions of a list of `n` bits from `b` on. -/
def InList (n b : Nat) (ps : List Nat) : Prop := ∀ p ∈ ps, b ≤ p ∧ p < b + n

/-- The set positions of a list are numbers of the list, in increasing order. -/
theorem inList_numbersFrom (h : HasGeometry n b bl) (q : Nat) : InList n b (numbersFrom bl q) := by
  intro p hp
  have hbounds := mem_numbersFrom hp
  rw [h.baseBit, h.maxBits] at hbounds
  omega

/-- A block of positions of the list is a valid item. -/
theorem valid_item {s : Span} (h : InList n b s.numbers) : Valid n b s.item := by
  have hle := s.le
  have hfirst := h s.first (Span.mem_numbers.mpr ⟨le_rfl, hle⟩)
  have hlast := h s.last (Span.mem_numbers.mpr ⟨hle, le_rfl⟩)
  exact ⟨s.item_wellFormed, Span.item_within (by omega) (by omega)⟩

/-- `bitlist_from_string` accepts the text of a page, and its numbers come to the list. -/
theorem fromString_page (h : HasGeometry n b bl) (hn : 0 < n) (hbn : b + n < 2147483584)
    (malloc : Bool) {spans : List Span} (hin : InList n b (spans.flatMap Span.numbers)) :
    ∃ bl', bitlistFromString malloc bl (pageText spans) = some (bl', true, none) ∧
      Adds n b (fun p => ∃ q ∈ spans.flatMap Span.numbers, (q : Int) = p) bl bl' := by
  have hvalid : ∀ item ∈ spans.map Span.item, b + n ≤ 2147483648 ∧ Valid n b item := by
    intro item hitem
    obtain ⟨s, hs, rfl⟩ := List.mem_map.mp hitem
    refine ⟨by omega, valid_item ?_⟩
    intro p hp
    exact hin p (List.mem_flatMap.mpr ⟨s, hs, hp⟩)
  have hmax : maxNumber n b < intMax := by
    rw [maxNumber_eq (by omega) hn (by omega), intMax]
    omega
  -- The largest number is below the largest `int`, so no range of the page is endless.
  have hread : ∀ item ∈ spans.map Span.item, Readable (minNumber b) (maxNumber n b) item := by
    intro item hitem
    obtain ⟨hle, hok⟩ := hvalid item hitem
    have hwithin := hok.within (by omega) hn hle
    exact ⟨hok.1, hwithin, not_endless_of_within hmax hwithin⟩
  obtain ⟨bl', hcall, hadds⟩ := fromString_accepts h malloc hread
  refine ⟨bl', hcall, hadds.congr ?_⟩
  intro p
  rw [denoted_iff hvalid, items_denote]

/-- The same for one page after the other. -/
theorem feed_pages (h : HasGeometry n b bl) (hn : 0 < n) (hbn : b + n < 2147483584)
    (malloc : Bool) (hin : InList n b (pages.flatMap (List.flatMap Span.numbers))) :
    ∃ back, feed malloc bl (pages.map pageText) = some back ∧
      Adds n b (fun p => ∃ q ∈ pages.flatMap (List.flatMap Span.numbers), (q : Int) = p)
        bl back := by
  induction pages generalizing bl with
  | nil => exact ⟨bl, rfl, (Adds.refl h).congr (by simp)⟩
  | cons spans pages ih =>
      have hpage : InList n b (spans.flatMap Span.numbers) := by
        intro p hp
        exact hin p (by rw [List.flatMap_cons, List.mem_append]; exact Or.inl hp)
      have hrest : InList n b (pages.flatMap (List.flatMap Span.numbers)) := by
        intro p hp
        exact hin p (by rw [List.flatMap_cons, List.mem_append]; exact Or.inr hp)
      obtain ⟨bl₁, hcall, hadds⟩ := fromString_page h hn hbn malloc hpage
      obtain ⟨back, hfeed, hadds'⟩ := ih hadds.geometry hrest
      refine ⟨back, ?_, (hadds.trans hadds').congr ?_⟩
      · rw [List.map_cons, feed, List.foldlM_cons, hcall]
        exact hfeed
      · intro p
        simp only [List.flatMap_cons, List.mem_append, or_and_right, exists_or]

/-- Two lists of one geometry with the same bits answer `bitlist_test` alike. -/
theorem test_eq_of_bits {bl' : BitlistT} (h : HasGeometry n b bl) (h' : HasGeometry n b bl')
    (hbits : ∀ o < n, bitAt bl'.bits o = bitAt bl.bits o) (p : Int) :
    bitlistTest bl' p = bitlistTest bl p := by
  by_cases hvalid : 0 ≤ int32 (p - b) ∧ int32 (p - b) < n
  · obtain ⟨o, ho⟩ := Int.eq_ofNat_of_zero_le hvalid.1
    have hlt : o < n := by omega
    rw [h.test_of_offset ho hlt, h'.test_of_offset ho hlt, hbits o hlt]
  · rw [h.test_of_invalid hvalid, h'.test_of_invalid hvalid]

/-- The texts of all set positions make the set again. -/
theorem feed_restores (h : HasGeometry n b bl) (hn : 0 < n) (hbn : b + n < 2147483584)
    (hpages : pages.flatMap (List.flatMap Span.numbers) = numbersFrom bl 0) {malloc : Bool}
    {memory fresh : BitlistT} (hmemory : memory.bits.length = (n + 31) / 32)
    (hclear : bitlistClearall memory n b = some fresh) :
    ∃ back, feed malloc fresh (pages.map pageText) = some back ∧
      ∀ p, bitlistTest back p = bitlistTest bl p := by
  obtain ⟨fresh', hcall, hgeo, hzero⟩ := clearall_spec h.le_max (by omega : b < 2147483648) hmemory
  obtain rfl : fresh' = fresh := Option.some.inj (hcall.symm.trans hclear)
  have hin : InList n b (pages.flatMap (List.flatMap Span.numbers)) :=
    hpages ▸ inList_numbersFrom h 0
  obtain ⟨back, hfeed, hadds⟩ := feed_pages hgeo hn hbn malloc hin
  refine ⟨back, hfeed, test_eq_of_bits h hadds.geometry ?_⟩
  intro o ho
  rw [Bool.eq_iff_iff, hadds.bits o ho, hpages, hzero o]
  constructor
  · intro hset
    rcases hset with hfalse | ⟨p, ⟨q, hq, rfl⟩, hoffset⟩
    · cases hfalse
    · obtain ⟨o', ho', rfl⟩ := List.mem_map.mp hq
      obtain ⟨-, hlt, hbit⟩ := mem_positions.mp ho'
      rw [h.maxBits] at hlt
      -- the offset of the position is the one it came from
      rw [h.baseBit, int32_of_range (by omega) (by omega)] at hoffset
      obtain rfl : o' = o := by omega
      exact hbit
  · intro hbit
    have hpos : o ∈ positions (bitAt bl.bits) 0 bl.state.maxBits :=
      mem_positions.mpr ⟨Nat.zero_le o, by rw [h.maxBits]; exact ho, hbit⟩
    refine Or.inr ⟨_, ⟨bl.state.baseBit + o, List.mem_map_of_mem hpos, rfl⟩, ?_⟩
    rw [h.baseBit, int32_of_range] <;> omega

end Texts

/-! ### The laws -/

/-- The line of a text, if the text is not empty. -/
def lineOf (linePrefix lineSuffix buf : List Char) : List (List Char) :=
  if buf ≠ [] then [linePrefix ++ [' '] ++ buf ++ lineSuffix] else []

/-- The loop of `bitlist_nv_write` is a caller's loop that writes each page as a line. -/
theorem nvWritePass_eq (room : Nat) (len : Int) (linePrefix lineSuffix : List Char) :
    nvWritePass room len linePrefix lineSuffix
      = callsPass room len (lineOf linePrefix lineSuffix) := by
  funext s
  obtain ⟨bl, begin, lines⟩ := s
  unfold nvWritePass callsPass
  dsimp only
  cases bitlistToString room bl len begin with
  | none => rfl
  | some r =>
      obtain ⟨bl', buf, i⟩ := r
      have hlines : (if buf ≠ []
          then lines ++ [linePrefix ++ [' '] ++ buf ++ lineSuffix] else lines)
            = lines ++ lineOf linePrefix lineSuffix buf := by
        unfold lineOf
        split
        · rfl
        · rw [List.append_nil]
      show (if i ≠ bitlistInvalid then some (Pass.again (bl', false, if buf ≠ []
          then lines ++ [linePrefix ++ [' '] ++ buf ++ lineSuffix] else lines))
        else some (.done (bl', if buf ≠ []
          then lines ++ [linePrefix ++ [' '] ++ buf ++ lineSuffix] else lines))) = _
      rw [hlines]
      rfl

/-- The pages with something on them. -/
def printedPages (pages : List (List Span)) : List (List Span) :=
  pages.filter fun spans => !spans.isEmpty

section Laws
variable {n b : Nat} {bl : BitlistT} {size : Nat} {pages : List (List Span)}

/-- A page is printed unless it is empty. -/
theorem printedPages_cons (spans : List Span) (pages : List (List Span)) :
    printedPages (spans :: pages)
      = if spans = [] then printedPages pages else spans :: printedPages pages := by
  cases spans <;> rfl

/-- Leaving out the empty pages loses no number. -/
theorem flatMap_printedPages (pages : List (List Span)) :
    (printedPages pages).flatMap (List.flatMap Span.numbers)
      = pages.flatMap (List.flatMap Span.numbers) := by
  induction pages with
  | nil => rfl
  | cons spans pages ih =>
      rw [printedPages_cons, List.flatMap_cons]
      split
      · rename_i hnil
        rw [hnil, ih, List.flatMap_nil, List.nil_append]
      · rw [List.flatMap_cons, ih]

/-- The lines are those of the pages with something on them. -/
theorem flatMap_lineOf (linePrefix lineSuffix : List Char) (pages : List (List Span)) :
    (pages.map pageText).flatMap (lineOf linePrefix lineSuffix)
      = ((printedPages pages).map pageText).map
          fun chunk => linePrefix ++ [' '] ++ chunk ++ lineSuffix := by
  induction pages with
  | nil => rfl
  | cons spans pages ih =>
      rw [printedPages_cons, List.map_cons, List.flatMap_cons, ih, lineOf]
      by_cases hnil : spans = []
      · rw [if_pos hnil, if_neg (not_not.mpr (pageText_eq_nil_iff.mpr hnil)), List.nil_append]
      · rw [if_neg hnil, if_pos (mt pageText_eq_nil_iff.mp hnil), List.map_cons, List.map_cons,
          List.singleton_append]

/-- The largest position has room, and so have all. -/
theorem hasRoom_of_largest (hwf : WellFormed bl)
    (h : ∀ p, (setPositions bl).getLast? = some p → (decimal p).length < size) :
    HasRoom size (numbersFrom bl 0) := by
  apply HasRoom.of_getLast?
  · rw [numbersFrom, List.pairwise_map]
    exact positions_pairwise.imp fun hlt => Nat.add_lt_add_left hlt _
  · intro p hp
    apply h p
    rw [setPositions_eq_positionsFrom hwf, positionsFrom_eq_map, List.getLast?_map, hp]
    rfl

/-- The positions of a list before the largest `int` have ten digits at most. -/
theorem length_digits_numbersFrom (hint : bl.state.baseBit + bl.state.maxBits < 2147483584) :
    ∀ p ∈ numbersFrom bl 0, (digits p).length ≤ 10 := by
  intro p hp
  have hbounds := mem_numbersFrom hp
  exact length_digits_le (by decide) (by omega)

variable (h : HasGeometry n b bl) (hn : 0 < n) (hbn : b + n < 2147483584) (hpos : 0 < size)
  (hsize : size < 2147483648)
include h hbn hpos

/-- The calls of `bitlist_to_string` with room for every position, from the start on. -/
theorem loop_of_pages (hno : ¬PagesOverrun size lengthLimit (numbersFrom bl 0))
    (hpages : Pages size (numbersFrom bl 0) pages) (hnumbers : HasRoom size (numbersFrom bl 0))
    {room : Nat} (hle : size ≤ room) (hroom : room < lengthLimit)
    (emit : List Char → List (List Char)) :
    ∃ bl', loop (callsPass room size emit) (bl.state.maxBits + 1) (bl, true, [])
      = some (bl', (pages.map pageText).flatMap emit) := by
  have hint : bl.state.baseBit + bl.state.maxBits < 2147483584 := by
    rw [h.baseBit, h.maxBits]
    exact hbn
  have hfuel : pages.length ≤ bl.state.maxBits + 1 :=
    (hpages.length_le hnumbers).trans (Nat.succ_le_succ length_numbersFrom_le)
  obtain ⟨elem, bit, hloop⟩ := @loop_calls bl bl room size true _ emit [] h.wellFormed hint hpos
    hle hroom pages hpages hno hnumbers (starts_begin h.wellFormed (by omega)) _ hfuel
  exact ⟨withCursor bl elem bit, hloop⟩

include hsize hn

/-- The pages carry the whole list where every number has room and no text is too long. -/
theorem pagingLaw_of_not_overrun (hno : ¬PagesOverrun size lengthLimit (numbersFrom bl 0))
    (hnumbers : HasRoom size (numbersFrom bl 0)) : PagingLaw n b bl size := by
  obtain ⟨pages, hpages⟩ := exists_pages hnumbers
  obtain ⟨bl', hloop⟩ := loop_of_pages h hbn hpos hno hpages hnumbers le_rfl hsize
    fun buf => [buf]
  rw [List.flatMap_singleton'] at hloop
  refine ⟨bl', pages.map pageText, hloop, ?_,
    carries_of_numbers h.wellFormed hpages.flatMap_numbers, ?_⟩
  · intro chunk hchunk
    obtain ⟨spans, hspans, rfl⟩ := List.mem_map.mp hchunk
    exact hpages.length_lt hpos spans hspans
  · intro malloc memory fresh hmemory hclear
    exact feed_restores h hn hbn hpages.flatMap_numbers hmemory hclear

omit hn in
/-- The lines carry the whole list where every number has room and no text is too long. -/
theorem nvWriteLaw_of_not_overrun (hno : ¬PagesOverrun size lengthLimit (numbersFrom bl 0))
    (hnumbers : HasRoom size (numbersFrom bl 0)) : NvWriteLaw bl size := by
  intro malloc linePrefix lineSuffix maxlen hmaxlen hmalloc
  obtain ⟨pages, hpages⟩ := exists_pages hnumbers
  have hlen : int32 (maxlen - (linePrefix.length + 1 + lineSuffix.length)) = size := by
    rw [hmaxlen, int32_of_range] <;> omega
  -- the local buffer, or one of the size from `malloc`
  obtain ⟨room, hroom, hle, hlimit⟩ : ∃ room : Nat,
      (if (size : Int) ≤ 80 then 80 else (size : Int).toNat) = room ∧ size ≤ room ∧
        room < lengthLimit := by
    have hdef : lengthLimit = 2147483648 := rfl
    refine ⟨_, rfl, ?_, ?_⟩ <;> split <;> omega
  obtain ⟨bl', hloop⟩ := loop_of_pages h hbn hpos hno hpages hnumbers hle hlimit
    (lineOf linePrefix lineSuffix)
  rw [flatMap_lineOf] at hloop
  refine ⟨bl', _, (printedPages pages).map pageText, ?_, rfl, ?_, ?_⟩
  · have hbuffer : ¬((size : Int) > 80 ∧ (!malloc) = true) := by
      intro hno
      rcases hmalloc with htrue | hsmall
      · rw [htrue] at hno
        cases hno.2
      · omega
    unfold bitlistNvWrite
    dsimp only
    rw [hlen, if_neg hbuffer, hroom, nvWritePass_eq, Option.bind_eq_bind, bind_of_some hloop]
  · intro line hline
    obtain ⟨chunk, hchunk, rfl⟩ := List.mem_map.mp hline
    obtain ⟨spans, hspans, rfl⟩ := List.mem_map.mp hchunk
    have hroom' := hpages.length_lt hpos spans (List.mem_of_mem_filter hspans)
    simp only [List.length_append, List.length_cons, List.length_nil]
    omega
  · exact carries_of_numbers h.wellFormed
      ((flatMap_printedPages pages).trans hpages.flatMap_numbers)

omit hn in
/-- A text that no `int` measures goes beyond the buffer. -/
theorem not_pagingLaw_of_overrun (hnumbers : HasRoom size (numbersFrom bl 0))
    (hover : PagesOverrun size lengthLimit (numbersFrom bl 0)) : ¬PagingLaw n b bl size := by
  intro hlaw
  obtain ⟨bl', chunks, hprint, -⟩ := hlaw
  have hint : bl.state.baseBit + bl.state.maxBits < 2147483584 := by
    rw [h.baseBit, h.maxBits]
    exact hbn
  have hfault : printPages size bl = none :=
    loop_calls_overrun h.wellFormed hint hpos le_rfl hsize hover hnumbers
      (starts_begin h.wellFormed (by omega)) _
  rw [hfault] at hprint
  cases hprint

/-- For every list of bits within the `int`s and every size that has room for the largest
position: the laws hold exactly where no text is too long for its length to be an `int`. -/
theorem paging_iff
    (hlargest : ∀ p, (setPositions bl).getLast? = some p → (decimal p).length < size) :
    (PagingLaw n b bl size ∧ NvWriteLaw bl size)
      ↔ ¬PagesOverrun size lengthLimit (numbersFrom bl 0) := by
  have hnumbers := hasRoom_of_largest h.wellFormed hlargest
  constructor
  · intro hlaws hover
    exact not_pagingLaw_of_overrun h hbn hpos hsize hnumbers hover hlaws.1
  · intro hno
    exact ⟨pagingLaw_of_not_overrun h hn hbn hpos hsize hno hnumbers,
      nvWriteLaw_of_not_overrun h hbn hpos hsize hno hnumbers⟩

omit hsize hn in
/-- No text is too long where ten more characters than the size can be measured. -/
theorem not_pagesOverrun_of_size (hsmall : size + 10 < 2147483648) :
    ¬PagesOverrun size lengthLimit (numbersFrom bl 0) := by
  intro hover
  have hint : bl.state.baseBit + bl.state.maxBits < 2147483584 := by
    rw [h.baseBit, h.maxBits]
    exact hbn
  have hlimit := hover.limit_lt hpos (length_digits_numbersFrom hint)
  have hdef : lengthLimit = 2147483648 := rfl
  omega

end Laws

/-! ### Two lists -/

/-- The bits 1 to 3, 5, 7 to 15 and 20. -/
def headerList : BitlistT := ⟨⟨1, 32, 0, 0, 0⟩, [0x10FFAE]⟩

/-- The pages of eight characters that `bitlist.h` gives for this list. -/
example : (printPages 8 headerList).map Prod.snd = some ["1-3,5,7".toList, "8-15,20".toList] := by
  decide +kernel

/-- The list of the header's example is well formed. -/
theorem headerList_geometry : HasGeometry 32 0 headerList := ⟨rfl, rfl, rfl, rfl, by decide⟩

/-- The list of the header's example meets both contracts at the size of its example. -/
theorem paging_headerList : PagingLaw 32 0 headerList 8 ∧ NvWriteLaw headerList 8 := by
  have hlast : (setPositions headerList).getLast? = some 20 := by decide +kernel
  refine (paging_iff headerList_geometry (by decide) (by decide) (by decide) (by decide) ?_).mpr ?_
  · intro p hp
    rw [hlast, Option.some.injEq] at hp
    subst hp
    decide
  · exact not_pagesOverrun_of_size headerList_geometry (by decide) (by decide) (by decide)

section Sparse
variable {k b : Nat}

/-- `k` words from `b` on where every second bit is set. -/
def sparseList (k b : Nat) : BitlistT := ⟨⟨k, 32 * k, b, 0, 0⟩, List.replicate k 0x55555555#32⟩

/-- A list with every other bit set is well formed. -/
theorem sparseList_geometry (hk : 32 * k ≤ 2147483616) :
    HasGeometry (32 * k) b (sparseList k b) where
  maxElems := by show k = (32 * k + 31) / 32; omega
  maxBits := rfl
  baseBit := rfl
  length := by rw [sparseList, List.length_replicate]; omega
  le_max := hk

/-- The set bits of the sparse list are the even ones. -/
theorem bitAt_sparseList {o : Nat} (ho : o < 32 * k) :
    bitAt (sparseList k b).bits o = decide (o % 2 = 0) := by
  have hword : ∀ j < 32, (0x55555555#32).getLsbD j = decide (j % 2 = 0) := by decide
  have hmod : o % 32 % 2 = o % 2 := Nat.mod_mod_of_dvd o (by decide)
  rw [sparseList, bitAt_replicate (by omega), hword (o % 32) (Nat.mod_lt o (by decide)), hmod]

/-- Every second number of a block. -/
theorem filter_even_range' (f : Nat → Bool) (m s : Nat)
    (hf : ∀ o, s ≤ o → o < s + 2 * m → f o = decide (o % 2 = 0)) (hs : s % 2 = 0) :
    (List.range' s (2 * m)).filter f = List.range' s m 2 := by
  induction m generalizing s with
  | zero => rfl
  | succ m ih =>
      have hlen : 2 * (m + 1) = 2 * m + 1 + 1 := by omega
      have heven : f s = true := by rw [hf s le_rfl (by omega), hs]; rfl
      have hodd : f (s + 1) = false := by
        rw [hf (s + 1) (by omega) (by omega), decide_eq_false_iff_not]
        omega
      have htail := ih (s + 2) (fun o hle hlt => hf o (by omega) (by omega)) (by omega)
      rw [hlen, List.range'_succ, List.range'_succ, List.range'_succ,
        List.filter_cons_of_pos heven, List.filter_cons_of_neg (by simp [hodd]), htail]

/-- The numbers of the sparse list are two apart. -/
theorem numbersFrom_sparseList (k b : Nat) :
    numbersFrom (sparseList k b) 0 = List.range' b (16 * k) 2 := by
  have hlen : 32 * k = 2 * (16 * k) := by omega
  have hpos : positions (bitAt (sparseList k b).bits) 0 (32 * k) = List.range' 0 (16 * k) 2 := by
    rw [positions, Nat.sub_zero, hlen]
    apply filter_even_range'
    · intro o _ ho
      exact bitAt_sparseList (by omega)
    · rfl
  show (positions (bitAt (sparseList k b).bits) 0 (32 * k)).map (fun (o : Nat) => b + o) = _
  rw [hpos, List.map_add_range']
  rfl

/-- Every second number, one number too many. -/
theorem overruns_range' {j r w size limit : Nat}
    (hw : ∀ p, b ≤ p → p ≤ b + 2 * j → (digits p).length = w) (hsize : (w + 1) * j ≤ size)
    (hlimit : limit < (w + 1) * (j + 1)) (hpos : 0 < size) :
    Overruns size limit (List.range' b (j + (r + 1)) 2) := by
  have happart : Apart (List.range' b (j + (r + 1)) 2) :=
    (List.isChain_range' b _ 2).imp fun p q heq => by omega
  rw [← List.range'_append, List.range'_succ] at happart ⊢
  have hfront : ∀ p ∈ List.range' b j 2 ++ [b + 2 * j], (digits p).length = w := by
    intro p hp
    rw [← List.range'_concat] at hp
    obtain ⟨i, hi, rfl⟩ := List.mem_range'.mp hp
    exact hw _ (by omega) (by omega)
  have hlen : (List.range' b j 2).length = j := List.length_range'
  exact overruns_of_apart happart hfront (by rwa [hlen]) (by rwa [hlen]) hpos

end Sparse

/-- 195225792 positions of ten digits each. -/
def tenDigits : BitlistT := sparseList 12201612 1000000000

/-- The list of the counterexample is well formed. -/
theorem tenDigits_geometry : HasGeometry (32 * 12201612) 1000000000 tenDigits :=
  sparseList_geometry (by omega)

/-- The length of the text up to the position 195225787 is no `int`, but the text before it
has room. -/
theorem tenDigits_overrun :
    PagesOverrun 2147483647 lengthLimit (numbersFrom tenDigits 0) := by
  have hw : ∀ p, 1000000000 ≤ p → p ≤ 1000000000 + 2 * 195225786 → (digits p).length = 9 + 1 := by
    intro p hlow hhigh
    exact length_digits_eq (by decide) hlow (by omega)
  have hcount : 16 * 12201612 = 195225786 + (5 + 1) := by norm_num
  have hlimit : lengthLimit < (9 + 1 + 1) * (195225786 + 1) := by
    rw [lengthLimit]
    norm_num
  rw [tenDigits, numbersFrom_sparseList, hcount]
  exact .here (overruns_range' hw (by norm_num) hlimit (by norm_num))

/-- With a buffer of 2147483647 characters the laws do not hold for these positions. -/
theorem not_paging :
    ¬∀ (n b : Nat) (bl : BitlistT) (size : Nat), HasGeometry n b bl → 0 < n →
      b + n < 2147483584 → 0 < size → size < 2147483648 →
      (∀ p, (setPositions bl).getLast? = some p → (decimal p).length < size) →
      PagingLaw n b bl size ∧ NvWriteLaw bl size := by
  intro hall
  -- Each number alone has room, while the text of all of them outgrows the largest `int`.
  have hdigits : ∀ p ∈ numbersFrom tenDigits 0, (digits p).length ≤ 10 :=
    length_digits_numbersFrom
      (by rw [tenDigits_geometry.baseBit, tenDigits_geometry.maxBits]; omega)
  have hlargest : ∀ p, (setPositions tenDigits).getLast? = some p →
      (decimal p).length < 2147483647 := by
    intro p hp
    have hmem := List.mem_of_getLast? hp
    rw [setPositions_eq_positionsFrom tenDigits_geometry.wellFormed, positionsFrom_eq_map,
      List.mem_map] at hmem
    obtain ⟨q, hq, rfl⟩ := hmem
    exact (hdigits q hq).trans_lt (by omega)
  have hlaws := hall _ _ tenDigits 2147483647 tenDigits_geometry (by omega) (by omega) (by omega)
    (by omega) hlargest
  have hnumbers : HasRoom 2147483647 (numbersFrom tenDigits 0) := by
    intro p hp
    exact (hdigits p hp).trans_lt (by omega)
  exact not_pagingLaw_of_overrun tenDigits_geometry (by omega) (by omega) (by omega) hnumbers
    tenDigits_overrun hlaws.1

end MyTestFiles.Proofs.Bitlist
