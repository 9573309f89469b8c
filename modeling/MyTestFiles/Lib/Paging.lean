import MyTestFiles.Lib.NumberList

/-!
# `MyTestFiles.Lib.Paging`: a list of numbers, printed page by page

A printer writes a list of numbers as a number list, with a range for each block of
consecutive numbers, and puts as much on a page as has room there. `Prints` is what it has
printed so far, and `Page` is what it prints and what it leaves for the next page: where a
range has no room, its first number alone may still have some. `Pages` are all pages of a
list.

The pages hold the numbers in order, each once (`Pages.flatMap_numbers`), and have room for
their texts (`Pages.length_lt`). If a page has room for every single number, then the pages
come to an end (`exists_pages`).

`PagesOverrun` says that on the way a text comes up that is too long even to be measured.

The pages are built in three layers, and each has its own lemmas.

* A `Span` is a block of consecutive numbers and `Span.item` is the text it becomes. A block of
  one number is that number, and a longer block is a range of its two ends.
* `Prints size ps spans rest` says how far a printer has got through `ps`. It is an inductive
  relation and not a function, so a printer is compared with it step by step and needs no fuel
  here.
* `HasRoom size ps` is the condition under which a page always makes progress. Without it a page
  may hold nothing, and the pages of a list do not come to an end.
-/

set_option autoImplicit false

namespace MyTestFiles.Lib

/-! ### Decimal digits -/

/-- The digits of a number. -/
def digits (p : Nat) : List Char := Nat.toDigits 10 p

/-- The decimal digits of a number are a numeral: there is at least one and each is a digit. -/
theorem isNumeral_digits (p : Nat) : IsNumeral (digits p) :=
  ⟨Nat.toDigits_ne_nil, fun _ hc => Nat.isDigit_of_mem_toDigits (by decide) (by decide) hc⟩

/-- Reading the digits of a number gives the number back. -/
@[simp] theorem mathValue_digits (p : Nat) : mathValue (digits p) = p :=
  congrArg Int.ofNat Nat.ofDigitChars_ten_toDigits

/-- A number below `10 ^ k` has at most `k` digits. -/
theorem length_digits_le {p k : Nat} (hk : 0 < k) (hp : p < 10 ^ k) : (digits p).length ≤ k :=
  (Nat.length_toDigits_le_iff (by decide) hk).mpr hp

/-- The number of digits, from the powers of ten on both sides of the number. -/
theorem length_digits_eq {p k : Nat} (hk : 0 < k) (hlow : 10 ^ k ≤ p) (hhigh : p < 10 ^ (k + 1)) :
    (digits p).length = k + 1 := by
  have hle := length_digits_le (Nat.succ_pos k) hhigh
  have hmany : ¬(digits p).length ≤ k := by
    intro hfew
    have hlt : p < 10 ^ k := (Nat.length_toDigits_le_iff (by decide) hk).mp hfew
    omega
  omega

/-- Every number has a digit, zero included. -/
theorem length_digits_pos (p : Nat) : 0 < (digits p).length := Nat.length_toDigits_pos

/-- A smaller number has no more digits. -/
theorem length_digits_mono {p q : Nat} (h : p ≤ q) : (digits p).length ≤ (digits q).length := by
  apply length_digits_le (length_digits_pos q)
  have hq : q < 10 ^ (digits q).length :=
    (Nat.length_toDigits_le_iff (by decide) (length_digits_pos q)).mp le_rfl
  omega

/-! ### Blocks of numbers -/

/-- The numbers from `first` to `last`. -/
structure Span where
  first : Nat
  last : Nat
  le : first ≤ last

namespace Span

/-- One number. -/
def single (p : Nat) : Span := ⟨p, p, le_rfl⟩

/-- The numbers of a block, in increasing order. -/
def numbers (s : Span) : List Nat := List.range' s.first (s.last + 1 - s.first)

/-- The item that a block is printed as. -/
def item (s : Span) : Item :=
  if s.first = s.last then .number (digits s.first) else .range (digits s.first) (digits s.last)

/-- A block that the rest does not go on with. -/
def Ends (s : Span) (rest : List Nat) : Prop := rest.head? ≠ some (s.last + 1)

/-- A block of one number holds just that number. -/
@[simp] theorem numbers_single (p : Nat) : (single p).numbers = [p] := by
  simp [numbers, single]

/-- A block starts with its first number, and the rest follows without a gap. -/
theorem numbers_eq_cons (s : Span) :
    s.numbers = s.first :: List.range' (s.first + 1) (s.last - s.first) := by
  have hle := s.le
  have hlen : s.last + 1 - s.first = (s.last - s.first) + 1 := by omega
  rw [numbers, hlen, List.range'_succ]

/-- A block holds the numbers between its two ends, both included. -/
theorem mem_numbers {s : Span} {p : Nat} : p ∈ s.numbers ↔ s.first ≤ p ∧ p ≤ s.last := by
  have hle := s.le
  rw [numbers, List.mem_range'_1]
  omega

/-- A block of one number is printed as that number. -/
theorem item_single (p : Nat) : (single p).item = .number (digits p) := if_pos rfl

/-- A longer block is printed as a range of its ends. -/
theorem item_of_lt {s : Span} (h : s.first < s.last) :
    s.item = .range (digits s.first) (digits s.last) := if_neg h.ne

/-- What is printed for a block is well formed, because its first number is not behind its last.
-/
theorem item_wellFormed (s : Span) : s.item.WellFormed := by
  unfold item
  split
  · exact isNumeral_digits _
  · exact ⟨isNumeral_digits _, isNumeral_digits _⟩

/-- The item denotes the numbers of the block. -/
theorem item_denotes (s : Span) (p : Int) :
    s.item.Denotes mathValue p ↔ ∃ q ∈ s.numbers, (q : Int) = p := by
  have hle := s.le
  have hbounds : s.item.Denotes mathValue p ↔ (s.first : Int) ≤ p ∧ p ≤ s.last := by
    unfold item
    split
    · rename_i heq
      rw [Item.Denotes, mathValue_digits]
      omega
    · rw [Item.Denotes, mathValue_digits, mathValue_digits]
  rw [hbounds]
  constructor
  · intro hp
    exact ⟨p.toNat, mem_numbers.mpr (by omega), by omega⟩
  · intro hp
    obtain ⟨q, hq, rfl⟩ := hp
    have hbetween := mem_numbers.mp hq
    omega

/-- The bounds of a block are bounds of the item it is printed as. -/
theorem item_within {s : Span} {lo hi : Int} (hlo : lo ≤ s.first) (hhi : s.last ≤ hi) :
    s.item.Within mathValue lo hi := by
  have hle := s.le
  unfold item
  split
  · simp only [Item.Within, mathValue_digits]
    omega
  · simp only [Item.Within, mathValue_digits]
    omega

end Span

/-- A list that is not empty starts with a block that ends before the rest. -/
theorem exists_span (p : Nat) (ps : List Nat) :
    ∃ (s : Span) (rest : List Nat), s.first = p ∧ p :: ps = s.numbers ++ rest ∧ s.Ends rest := by
  induction ps generalizing p with
  | nil => exact ⟨.single p, [], rfl, by simp, by simp [Span.Ends]⟩
  | cons q ps ih =>
      by_cases hq : q = p + 1
      · obtain ⟨s, rest, rfl, heq, hends⟩ := ih q
        have hle := s.le
        refine ⟨⟨p, s.last, by omega⟩, rest, rfl, ?_, hends⟩
        have hcons := Span.numbers_eq_cons ⟨p, s.last, by omega⟩
        have hlen : s.last - p = s.last + 1 - s.first := by omega
        rw [hcons, heq, List.cons_append]
        simp only [Span.numbers, hlen, hq]
      · refine ⟨.single p, q :: ps, rfl, by simp, ?_⟩
        simpa [Span.Ends, Span.single] using hq

/-! ### Texts -/

/-- What stands before the next item. -/
def separator (text : List Char) : List Char := if text = [] then [] else [',']

/-- The text of some blocks. -/
def pageText (spans : List Span) : List Char := listText (spans.map Span.item)

section Text
variable {spans : List Span}

/-- Only the empty list has an empty text, since an item is never empty. -/
theorem listText_eq_nil_iff {items : List Item} (h : ∀ item ∈ items, item.WellFormed) :
    listText items = [] ↔ items = [] := by
  constructor
  · intro hnil
    exact listText_inj h (by simp) hnil
  · intro hnil
    rw [hnil, listText]

/-- Every item on a page is well formed. -/
theorem items_wellFormed (spans : List Span) : ∀ item ∈ spans.map Span.item, item.WellFormed := by
  intro item hitem
  obtain ⟨s, -, rfl⟩ := List.mem_map.mp hitem
  exact s.item_wellFormed

/-- A page is empty just where no block is on it. -/
theorem pageText_eq_nil_iff : pageText spans = [] ↔ spans = [] := by
  rw [pageText, listText_eq_nil_iff (items_wellFormed spans), List.map_eq_nil_iff]

/-- One more block. -/
theorem pageText_concat (s : Span) :
    pageText (spans ++ [s]) = pageText spans ++ (separator (pageText spans) ++ s.item.text) := by
  by_cases hnil : spans = []
  · subst hnil
    show s.item.text ++ tailText [] = s.item.text
    rw [tailText, List.flatMap_nil, List.append_nil]
  · obtain ⟨init, last, rfl⟩ := List.eq_nil_or_concat spans |>.resolve_left hnil
    have hsep : separator (pageText (init.concat last)) = [','] :=
      if_neg (mt pageText_eq_nil_iff.mp hnil)
    rw [hsep, List.concat_eq_append, pageText, pageText]
    simp only [List.map_append, List.map_cons, List.map_nil, listText_concat]
    simp [prefixText]

/-- One more number takes its digits and a comma. -/
theorem length_pageText_concat_le (spans : List Span) (p : Nat) :
    (pageText (spans ++ [.single p])).length ≤ (pageText spans).length + 1 + (digits p).length := by
  have hsep : (separator (pageText spans)).length ≤ 1 := by
    unfold separator
    split <;> simp
  rw [pageText_concat, List.length_append, List.length_append, Span.item_single, Item.text]
  omega

/-- A range is its first number and a second part. -/
theorem pageText_range {s : Span} (h : s.first < s.last) :
    pageText (spans ++ [s]) = pageText (spans ++ [.single s.first]) ++ '-' :: digits s.last := by
  rw [pageText_concat, pageText_concat, Span.item_single, Span.item_of_lt h, Item.text, Item.text]
  simp

/-- The first number of a block takes no more room than the block. -/
theorem length_pageText_single_le (s : Span) :
    (pageText (spans ++ [.single s.first])).length ≤ (pageText (spans ++ [s])).length := by
  by_cases heq : s.first = s.last
  · have hsame : s = .single s.first := by
      obtain ⟨first, last, hle⟩ := s
      simp only at heq
      subst heq
      rfl
    rw [← hsame]
  · have hlt : s.first < s.last := lt_of_le_of_ne s.le heq
    rw [pageText_range hlt, List.length_append]
    omega

/-- The text denotes the numbers of the blocks. -/
theorem items_denote (spans : List Span) (p : Int) :
    (∃ item ∈ spans.map Span.item, item.Denotes mathValue p)
      ↔ ∃ q ∈ spans.flatMap Span.numbers, (q : Int) = p := by
  constructor
  · intro h
    obtain ⟨item, hitem, hden⟩ := h
    obtain ⟨s, hs, rfl⟩ := List.mem_map.mp hitem
    obtain ⟨q, hq, heq⟩ := (s.item_denotes p).mp hden
    exact ⟨q, List.mem_flatMap.mpr ⟨s, hs, hq⟩, heq⟩
  · intro h
    obtain ⟨q, hq, heq⟩ := h
    obtain ⟨s, hs, hmem⟩ := List.mem_flatMap.mp hq
    exact ⟨s.item, List.mem_map_of_mem hs, (s.item_denotes p).mpr ⟨q, hmem, heq⟩⟩

end Text

/-! ### Pages -/

section Pages
variable (size : Nat)

/-- The printer has printed `spans` of a list and goes on with `rest`. -/
inductive Prints (ps : List Nat) : List Span → List Nat → Prop
  | start : Prints ps [] ps
  | step {spans : List Span} {s : Span} {rest : List Nat}
      (h : Prints ps spans (s.numbers ++ rest)) (hends : s.Ends rest)
      (hroom : (pageText (spans ++ [s])).length < size) : Prints ps (spans ++ [s]) rest

/-- A page holds `spans` of a list and leaves `rest`. -/
inductive Page (ps : List Nat) : List Span → List Nat → Prop
  /-- Everything is printed. -/
  | done {spans : List Span} (h : Prints size ps spans []) : Page ps spans []
  /-- There is no room for the next number. -/
  | full {spans : List Span} {p : Nat} {rest : List Nat} (h : Prints size ps spans (p :: rest))
      (hfull : size ≤ (pageText (spans ++ [.single p])).length) : Page ps spans (p :: rest)
  /-- There is room for the first number of a range, but not for the second. -/
  | cut {spans : List Span} {s : Span} {rest : List Nat}
      (h : Prints size ps spans (s.numbers ++ rest)) (hlt : s.first < s.last)
      (hends : s.Ends rest) (hroom : (pageText (spans ++ [.single s.first])).length < size)
      (hfull : size ≤ (pageText (spans ++ [s])).length) :
      Page ps (spans ++ [.single s.first]) (s.numbers.tail ++ rest)

/-- The pages of a list. -/
inductive Pages : List Nat → List (List Span) → Prop
  | last {ps : List Nat} {spans : List Span} (h : Page size ps spans []) : Pages ps [spans]
  | more {ps : List Nat} {spans : List Span} {p : Nat} {rest : List Nat}
      {pages : List (List Span)} (h : Page size ps spans (p :: rest))
      (htail : Pages (p :: rest) pages) : Pages ps (spans :: pages)

variable (limit : Nat)

/-- On a page of the list a text comes up that is as long as `limit`. -/
inductive Overruns (ps : List Nat) : Prop
  | number {spans : List Span} {p : Nat} {rest : List Nat} (h : Prints size ps spans (p :: rest))
      (hlong : limit ≤ (pageText (spans ++ [.single p])).length) : Overruns ps
  | range {spans : List Span} {s : Span} {rest : List Nat}
      (h : Prints size ps spans (s.numbers ++ rest)) (hlt : s.first < s.last)
      (hends : s.Ends rest) (hroom : (pageText (spans ++ [.single s.first])).length < size)
      (hlong : limit ≤ (pageText (spans ++ [s])).length) : Overruns ps

/-- The same on one of the pages of the list. -/
inductive PagesOverrun : List Nat → Prop
  | here {ps : List Nat} (h : Overruns size limit ps) : PagesOverrun ps
  | later {ps : List Nat} {spans : List Span} {p : Nat} {rest : List Nat}
      (h : Page size ps spans (p :: rest)) (htail : PagesOverrun (p :: rest)) : PagesOverrun ps

variable {size limit} {ps rest : List Nat} {spans : List Span} {pages : List (List Span)}

/-- What is printed and what is left make up the list. -/
theorem Prints.numbers_append (h : Prints size ps spans rest) :
    ps = spans.flatMap Span.numbers ++ rest := by
  induction h with
  | start => rfl
  | step h hends hroom ih => simpa using ih

/-- What has been printed so far fits, with room for the byte that ends the string. -/
theorem Prints.length_lt (h : Prints size ps spans rest) (hsize : 0 < size) :
    (pageText spans).length < size := by
  cases h with
  | start => exact hsize
  | step h hends hroom => exact hroom

/-- A page takes its numbers from the front of the list and leaves the rest. -/
theorem Page.numbers_append (h : Page size ps spans rest) :
    ps = spans.flatMap Span.numbers ++ rest := by
  cases h with
  | done h => exact h.numbers_append
  | full h hfull => exact h.numbers_append
  | @cut spans s rest h hlt hends hroom hfull =>
      have hps := h.numbers_append
      have hhead := s.numbers_eq_cons
      rw [List.flatMap_append, List.flatMap_singleton, Span.numbers_single, List.append_assoc]
      rw [hhead] at hps ⊢
      simpa using hps

/-- A finished page fits, too. -/
theorem Page.length_lt (h : Page size ps spans rest) (hsize : 0 < size) :
    (pageText spans).length < size := by
  cases h with
  | done h => exact h.length_lt hsize
  | full h hfull => exact h.length_lt hsize
  | cut h hlt hends hroom hfull => exact hroom

/-- Every list has a page. -/
theorem exists_page_of_prints (h : Prints size ps spans rest) :
    ∃ spans' rest', Page size ps spans' rest' := by
  induction hlen : rest.length using Nat.strong_induction_on generalizing spans rest with
  | _ k ih =>
  cases rest with
  | nil => exact ⟨spans, [], .done h⟩
  | cons p tail =>
      obtain ⟨s, rest, hfirst, heq, hends⟩ := exists_span p tail
      by_cases hroom : (pageText (spans ++ [.single p])).length < size
      · have hblock : Prints size ps spans (s.numbers ++ rest) := heq ▸ h
        subst hfirst
        by_cases hfits : (pageText (spans ++ [s])).length < size
        · -- what is left is shorter
          have hlt : rest.length < k := by
            rw [← hlen, heq, s.numbers_eq_cons, List.length_append, List.length_cons]
            omega
          exact ih rest.length hlt (hblock.step hends hfits) rfl
        · have hlt : s.first < s.last := by
            refine lt_of_le_of_ne s.le fun hsame => hfits ?_
            have hsingle : s = .single s.first := by
              obtain ⟨first, last, hle⟩ := s
              simp only at hsame
              subst hsame
              rfl
            rwa [← hsingle] at hroom
          exact ⟨_, _, .cut hblock hlt hends hroom (by omega)⟩
      · exact ⟨spans, p :: tail, .full h (by omega)⟩

/-- There is a page for every list, whatever the size. It may be empty. -/
theorem exists_page (size : Nat) (ps : List Nat) : ∃ spans rest, Page size ps spans rest :=
  exists_page_of_prints .start

/-- A page has room for every single number. -/
def HasRoom (size : Nat) (ps : List Nat) : Prop := ∀ p ∈ ps, (digits p).length < size

/-- The last number of a list that ascends has the most digits. -/
theorem HasRoom.of_getLast? (h : ps.Pairwise (· < ·))
    (hlast : ∀ p, ps.getLast? = some p → (digits p).length < size) : HasRoom size ps := by
  intro p hp
  have hle : p ≤ ps.getLast (List.ne_nil_of_mem hp) := (h.imp Nat.le_of_lt).rel_getLast hp
  exact (length_digits_mono hle).trans_lt (hlast _ (List.getLast?_eq_some_getLast _))

/-- The text of a page with one number. -/
theorem pageText_single (p : Nat) : pageText [.single p] = digits p := by
  show (Span.single p).item.text ++ tailText [] = digits p
  rw [tailText, List.flatMap_nil, List.append_nil, Span.item_single, Item.text]

/-- There is a block on a page that leaves something for the next one. -/
theorem Page.spans_ne_nil {p : Nat} (h : Page size ps spans (p :: rest)) (hroom : HasRoom size ps) :
    spans ≠ [] := by
  generalize hp : p :: rest = left at h
  cases h with
  | done h => cases hp
  | full h hfull =>
      rintro rfl
      cases hp
      have hps := h.numbers_append
      have hlt := hroom p (by rw [hps]; simp)
      rw [List.nil_append, pageText_single] at hfull
      omega
  | cut h hlt hends hcut hfull => simp

/-- What is left is shorter. -/
theorem Page.length_rest_lt {p : Nat} (h : Page size ps spans (p :: rest))
    (hroom : HasRoom size ps) : (p :: rest).length < ps.length := by
  obtain ⟨s, tail, rfl⟩ := List.exists_cons_of_ne_nil (h.spans_ne_nil hroom)
  have hps := h.numbers_append
  rw [List.flatMap_cons, s.numbers_eq_cons] at hps
  rw [hps]
  simp only [List.length_append, List.length_cons]
  omega

/-- The numbers that a page leaves have room for each as before. -/
theorem HasRoom.of_page (hroom : HasRoom size ps) (h : Page size ps spans rest) :
    HasRoom size rest := by
  intro p hp
  exact hroom p (by rw [h.numbers_append]; simp [hp])

/-- The pages come to an end. -/
theorem exists_pages (hroom : HasRoom size ps) : ∃ pages, Pages size ps pages := by
  induction hlen : ps.length using Nat.strong_induction_on generalizing ps with
  | _ k ih =>
  obtain ⟨spans, rest, h⟩ := exists_page size ps
  cases rest with
  | nil => exact ⟨_, .last h⟩
  | cons p rest =>
      have hlt := h.length_rest_lt hroom
      obtain ⟨pages, htail⟩ := ih _ (hlen ▸ hlt) (hroom.of_page h) rfl
      exact ⟨_, .more h htail⟩

/-- The pages hold the numbers of the list in order, each once. -/
theorem Pages.flatMap_numbers (h : Pages size ps pages) :
    pages.flatMap (List.flatMap Span.numbers) = ps := by
  induction h with
  | last h => simpa using h.numbers_append.symm
  | more h htail ih => rw [List.flatMap_cons, ih, ← h.numbers_append]

/-- Every page of a list fits. -/
theorem Pages.length_lt (h : Pages size ps pages) (hsize : 0 < size) :
    ∀ page ∈ pages, (pageText page).length < size := by
  induction h with
  | last h =>
      intro page hpage
      rw [List.mem_singleton.mp hpage]
      exact h.length_lt hsize
  | more h htail ih =>
      intro page hpage
      rcases List.mem_cons.mp hpage with rfl | hmem
      · exact h.length_lt hsize
      · exact ih page hmem

/-- Each page but the last holds a number, so there are at most as many pages as numbers and one
more. -/
theorem Pages.length_le (h : Pages size ps pages) (hroom : HasRoom size ps) :
    pages.length ≤ ps.length + 1 := by
  induction h with
  | last h => simp
  | more h htail ih =>
      have hlt := h.length_rest_lt hroom
      have htail' := ih (hroom.of_page h)
      rw [List.length_cons]
      omega

/-- A text is too long only if a page is about as long. -/
theorem Overruns.limit_lt {k : Nat} (h : Overruns size limit ps) (hsize : 0 < size)
    (hk : ∀ p ∈ ps, (digits p).length ≤ k) : limit ≤ size + k := by
  cases h with
  | @number spans p rest h hlong =>
      have hlen := h.length_lt hsize
      have hp := hk p (by rw [h.numbers_append]; simp)
      have hmore := length_pageText_concat_le spans p
      omega
  | @range spans s rest h hlt hends hroom hlong =>
      have hmem : s.last ∈ s.numbers := Span.mem_numbers.mpr ⟨s.le, le_rfl⟩
      have hp := hk s.last (by rw [h.numbers_append]; simp [hmem])
      rw [pageText_range hlt, List.length_append, List.length_cons] at hlong
      omega

/-- A text that is too long to be measured is longer than a page and one number, so with a limit
beyond these there is none. -/
theorem PagesOverrun.limit_lt {k : Nat} (h : PagesOverrun size limit ps) (hsize : 0 < size)
    (hk : ∀ p ∈ ps, (digits p).length ≤ k) : limit ≤ size + k := by
  induction h with
  | here h => exact h.limit_lt hsize hk
  | later h htail ih =>
      apply ih
      intro p hp
      exact hk p (by rw [h.numbers_append]; simp [hp])

/-! ### Numbers without neighbours -/

/-- No number is followed by the next one. -/
def Apart (ps : List Nat) : Prop := ps.IsChain fun p q => q ≠ p + 1

/-- Such numbers are printed one by one. -/
theorem prints_singles {front : List Nat} (h : Apart (front ++ rest))
    (hfits : (pageText (front.map Span.single)).length < size) :
    Prints size (front ++ rest) (front.map Span.single) rest := by
  induction front using List.reverseRecOn generalizing rest with
  | nil => exact .start
  | append_singleton front p ih =>
      rw [List.append_assoc, List.singleton_append] at h ⊢
      rw [List.map_append, List.map_singleton] at hfits ⊢
      have hshort : (pageText (front.map Span.single)).length < size := by
        rw [pageText_concat, List.length_append] at hfits
        omega
      have hprints := ih h hshort
      rw [← List.singleton_append, ← Span.numbers_single] at hprints ⊢
      refine hprints.step ?_ hfits
      -- the next number is not the neighbour
      intro hhead
      obtain ⟨tail, rfl⟩ := List.head?_eq_some_iff.mp hhead
      exact (List.isChain_cons_cons.mp h.right_of_append).1 rfl

/-- The numbers with a comma behind each, less the last comma. -/
theorem length_pageText_singles {w : Nat} (h : ∀ p ∈ ps, (digits p).length = w) :
    (pageText (ps.map Span.single)).length = (w + 1) * ps.length - 1 := by
  induction ps using List.reverseRecOn with
  | nil => rfl
  | append_singleton front p ih =>
      have hfront := ih fun q hq => h q (by simp [hq])
      have hp := h p (by simp)
      rw [List.map_append, List.map_singleton, pageText_concat, List.length_append,
        List.length_append, Span.item_single, Item.text, hp, hfront, List.length_append,
        List.length_singleton, Nat.mul_succ, separator]
      by_cases hnil : front = []
      · have htext : pageText (front.map Span.single) = [] := by rw [hnil]; rfl
        rw [if_pos htext, hnil, List.length_nil, List.length_nil]
        omega
      · have hlen : 0 < (w + 1) * front.length :=
          Nat.mul_pos (Nat.succ_pos w) (List.length_pos_of_ne_nil hnil)
        have htext : pageText (front.map Span.single) ≠ [] := by
          rw [ne_eq, pageText_eq_nil_iff, List.map_eq_nil_iff]
          exact hnil
        rw [if_neg htext, List.length_singleton]
        omega

/-- One number too many. -/
theorem overruns_of_apart {front : List Nat} {p w : Nat} (h : Apart (front ++ p :: rest))
    (hw : ∀ q ∈ front ++ [p], (digits q).length = w) (hsize : (w + 1) * front.length ≤ size)
    (hlimit : limit < (w + 1) * (front.length + 1)) (hpos : 0 < size) :
    Overruns size limit (front ++ p :: rest) := by
  have hfits : (pageText (front.map Span.single)).length < size := by
    rw [length_pageText_singles fun q hq => hw q (by simp [hq])]
    omega
  refine .number (prints_singles h hfits) ?_
  have hlen := length_pageText_singles hw
  rw [List.map_append, List.map_singleton, List.length_append, List.length_singleton] at hlen
  omega

end Pages

end MyTestFiles.Lib
