import MyTestFiles.Lib.Paging

/-!
# `MyTestFiles.Lib.Runs`: the maximal blocks of an ascending list of numbers

`runs` takes a list of numbers apart into blocks of consecutive numbers, as a reader does that
keeps one block open: it makes the open block longer by one number or closes it. The blocks
hold the numbers in order (`flatMap_numbers_runs`), and between two of them a number is
missing (`isChain_runs`), so that none of them can be longer. No other blocks do so
(`eq_runs`, and `eq_runs_of_mem` for the blocks of a set).

`spansText` is the text of some blocks in a numeral system. The decimal one is `pageText`, and
a printer with room for all of it prints exactly the blocks of `runs` (`prints_runs`).

The list has to be ascending for the blocks to be maximal, and nothing else is asked of it. For an
empty list there are no blocks.

A block is extended by one number at a time, so the induction over the list has two cases: the
next number follows the open block, or it does not. Every statement here is proved for `runsFrom`,
with an open block, and `runs` is the case in which the first number opens it.
-/

set_option autoImplicit false

namespace MyTestFiles.Lib

namespace Span

/-- The block with one more number. -/
def extend (s : Span) : Span := ⟨s.first, s.last + 1, s.le.trans (Nat.le_succ s.last)⟩

/-- An extended block holds one number more. -/
theorem numbers_extend (s : Span) : s.extend.numbers = s.numbers ++ [s.last + 1] := by
  have hle := s.le
  have hlen : s.last + 1 + 1 - s.first = (s.last + 1 - s.first) + 1 := by omega
  have hnext : s.first + (s.last + 1 - s.first) = s.last + 1 := by omega
  show List.range' s.first (s.last + 1 + 1 - s.first) = s.numbers ++ [s.last + 1]
  rw [hlen, List.range'_1_concat, hnext, numbers]

/-- A number is missing between two blocks. -/
def Before (s t : Span) : Prop := s.last + 1 < t.first

/-- A block as text: a number, or the first and the last of more. -/
def textWith (numeral : Nat → List Char) (s : Span) : List Char :=
  if s.first < s.last then numeral s.first ++ '-' :: numeral s.last else numeral s.first

/-- The text of an item is that of the block in decimal. -/
theorem item_text (s : Span) : s.item.text = s.textWith digits := by
  by_cases hlt : s.first < s.last
  · rw [textWith, if_pos hlt, item_of_lt hlt, Item.text]
  · have hle := s.le
    have heq : s.first = s.last := by omega
    rw [textWith, if_neg hlt, item, if_pos heq, Item.text]

end Span

/-! ### Runs -/

/-- The blocks of a list of numbers behind an open block. -/
def runsFrom : Span → List Nat → List Span
  | s, [] => [s]
  | s, p :: ps =>
      if p = s.last + 1 then runsFrom s.extend ps else s :: runsFrom (.single p) ps

/-- The blocks of a list of numbers. -/
def runs : List Nat → List Span
  | [] => []
  | p :: ps => runsFrom (.single p) ps

section Runs
variable {s : Span} {p : Nat} {ps : List Nat}

/-- The next number makes the open block longer. -/
theorem runsFrom_extend (s : Span) (ps : List Nat) :
    runsFrom s ((s.last + 1) :: ps) = runsFrom s.extend ps := by
  rw [runsFrom, if_pos rfl]

/-- Another number closes it. -/
theorem runsFrom_close (h : p ≠ s.last + 1) :
    runsFrom s (p :: ps) = s :: runsFrom (.single p) ps := by
  rw [runsFrom, if_neg h]

/-- The blocks hold the open block and the numbers behind it. -/
theorem flatMap_numbers_runsFrom (s : Span) (ps : List Nat) :
    (runsFrom s ps).flatMap Span.numbers = s.numbers ++ ps := by
  induction ps generalizing s with
  | nil => rw [runsFrom, List.flatMap_singleton, List.append_nil]
  | cons p ps ih =>
      by_cases hp : p = s.last + 1
      · subst hp
        rw [runsFrom_extend, ih, Span.numbers_extend, List.append_assoc, List.singleton_append]
      · rw [runsFrom_close hp, List.flatMap_cons, ih, Span.numbers_single, List.singleton_append]

/-- The blocks hold the numbers in order, each once. -/
theorem flatMap_numbers_runs (ps : List Nat) : (runs ps).flatMap Span.numbers = ps := by
  cases ps with
  | nil => rfl
  | cons p ps =>
      rw [runs, flatMap_numbers_runsFrom, Span.numbers_single, List.singleton_append]

/-- The open block keeps its first number. -/
theorem exists_runsFrom_eq_cons (s : Span) (ps : List Nat) :
    ∃ t ts, runsFrom s ps = t :: ts ∧ t.first = s.first := by
  induction ps generalizing s with
  | nil => exact ⟨s, [], rfl, rfl⟩
  | cons p ps ih =>
      by_cases hp : p = s.last + 1
      · subst hp
        rw [runsFrom_extend]
        exact ih s.extend
      · exact ⟨s, runsFrom (.single p) ps, runsFrom_close hp, rfl⟩

/-- Between two blocks a number is missing. -/
theorem isChain_runsFrom (h : (s.last :: ps).Pairwise (· < ·)) :
    (runsFrom s ps).IsChain Span.Before := by
  induction ps generalizing s with
  | nil => exact List.IsChain.singleton s
  | cons p ps ih =>
      have hps : (p :: ps).Pairwise (· < ·) := (List.pairwise_cons.mp h).2
      by_cases hp : p = s.last + 1
      · subst hp
        rw [runsFrom_extend]
        exact ih hps
      · -- the number that closes the block is beyond its neighbour
        have hlt : s.last < p := (List.pairwise_cons.mp h).1 p (by simp)
        have hchain := @ih (.single p) hps
        obtain ⟨t, ts, hruns, hfirst⟩ := exists_runsFrom_eq_cons (.single p) ps
        have hbefore : s.Before t := by
          show s.last + 1 < t.first
          rw [hfirst]
          show s.last + 1 < p
          omega
        rw [runsFrom_close hp, hruns]
        rw [hruns] at hchain
        exact List.IsChain.cons_cons hbefore hchain

/-- A number is missing between two blocks. -/
theorem isChain_runs (h : ps.Pairwise (· < ·)) : (runs ps).IsChain Span.Before := by
  cases ps with
  | nil => exact List.IsChain.nil
  | cons p ps => exact isChain_runsFrom h

/-- A reader of consecutive numbers is left with one open block. -/
theorem runsFrom_range (s : Span) (k : Nat) (ps : List Nat) :
    runsFrom s (List.range' (s.last + 1) k ++ ps)
      = runsFrom ⟨s.first, s.last + k, s.le.trans (Nat.le_add_right s.last k)⟩ ps := by
  induction k generalizing s with
  | zero => rfl
  | succ k ih =>
      have hnext := ih s.extend
      have hlast : s.extend.last = s.last + 1 := rfl
      rw [List.range'_succ, List.cons_append, runsFrom_extend, ← hlast, hnext]
      congr 2
      rw [hlast]
      omega

/-- A block at the front of the list is the open block. -/
theorem runs_block (s : Span) (ps : List Nat) : runs (s.numbers ++ ps) = runsFrom s ps := by
  have hle := s.le
  have hlast : s.first + (s.last - s.first) = s.last := by omega
  rw [s.numbers_eq_cons, List.cons_append, runs]
  -- the reader opens a block at the first number
  show runsFrom (.single s.first)
    (List.range' ((Span.single s.first).last + 1) (s.last - s.first) ++ ps) = _
  rw [runsFrom_range]
  congr 2

/-- There are no other blocks of the same numbers with a gap between two of them. -/
theorem eq_runs {spans : List Span} (h : spans.IsChain Span.Before) :
    spans = runs (spans.flatMap Span.numbers) := by
  induction spans with
  | nil => rfl
  | cons s spans ih =>
      rw [List.flatMap_cons, runs_block]
      cases spans with
      | nil => rfl
      | cons t spans =>
          have hbefore : s.last + 1 < t.first := (List.isChain_cons_cons.mp h).1
          have htail := ih h.tail
          rw [List.flatMap_cons, t.numbers_eq_cons, List.cons_append] at htail ⊢
          -- the number behind the gap closes the first block
          rw [runsFrom_close (by omega)]
          exact congrArg (s :: ·) htail

/-- Being behind each other with a gap is transitive. -/
theorem before_trans {s t u : Span} (h : s.Before t) (h' : t.Before u) : s.Before u := by
  have hle := t.le
  rw [Span.Before] at h h' ⊢
  omega

/-- So it holds of all pairs of blocks and not only of neighbours. -/
theorem pairwise_before {spans : List Span} (h : spans.IsChain Span.Before) :
    spans.Pairwise Span.Before := by
  have : Trans Span.Before Span.Before Span.Before := ⟨before_trans⟩
  exact List.isChain_iff_pairwise.mp h

/-- Two of such blocks are one block, or one is before the other. -/
theorem eq_or_before {spans : List Span} (h : spans.IsChain Span.Before) {s t : Span}
    (hs : s ∈ spans) (ht : t ∈ spans) : s = t ∨ s.Before t ∨ t.Before s := by
  by_cases heq : s = t
  · exact .inl heq
  · have hsymm : Std.Symm fun s t : Span => s.Before t ∨ t.Before s := ⟨fun _ _ => Or.symm⟩
    have hpair : spans.Pairwise fun s t => s.Before t ∨ t.Before s :=
      (pairwise_before h).imp Or.inl
    exact .inr (hpair.forall hs ht heq)

/-- Numbers without a gap between them are in one of such blocks. -/
theorem mem_of_between {spans : List Span} (h : spans.IsChain Span.Before) {s : Span}
    (hs : s ∈ spans) {p q : Nat} (hp : p ∈ s.numbers)
    (hall : ∀ r, min p q ≤ r → r ≤ max p q → ∃ t ∈ spans, r ∈ t.numbers) : q ∈ s.numbers := by
  have hle := s.le
  rw [Span.mem_numbers] at hp ⊢
  by_contra hout
  -- the number next to the block, on the way to `q`
  have hedge : ∃ r, min p q ≤ r ∧ r ≤ max p q ∧ (r = s.last + 1 ∨ r + 1 = s.first) := by
    rcases Nat.lt_or_ge q s.first with hlt | hge
    · exact ⟨s.first - 1, by omega, by omega, by omega⟩
    · exact ⟨s.last + 1, by omega, by omega, .inl rfl⟩
  obtain ⟨r, hmin, hmax, hnext⟩ := hedge
  obtain ⟨t, ht, hr⟩ := hall r hmin hmax
  rw [Span.mem_numbers] at hr
  rcases eq_or_before h hs ht with rfl | hst | hts
  · omega
  · rw [Span.Before] at hst
    omega
  · rw [Span.Before] at hts
    omega

/-- The numbers of such blocks are ascending. -/
theorem pairwise_numbers {spans : List Span} (h : spans.IsChain Span.Before) :
    (spans.flatMap Span.numbers).Pairwise (· < ·) := by
  refine List.pairwise_flatMap.mpr ⟨fun s _ => List.pairwise_lt_range', ?_⟩
  refine (pairwise_before h).imp fun {s t} hst p hp q hq => ?_
  have hp' := (Span.mem_numbers.mp hp).2
  have hq' := (Span.mem_numbers.mp hq).1
  rw [Span.Before] at hst
  omega

/-- Blocks with a gap between two of them are the blocks of their set of numbers. -/
theorem eq_runs_of_mem {spans : List Span} (h : spans.IsChain Span.Before)
    (hps : ps.Pairwise (· < ·)) (hmem : ∀ p, p ∈ spans.flatMap Span.numbers ↔ p ∈ ps) :
    spans = runs ps := by
  have hsorted := pairwise_numbers h
  have hperm : (spans.flatMap Span.numbers).Perm ps :=
    (List.perm_ext_iff_of_nodup (hsorted.imp Nat.ne_of_lt) (hps.imp Nat.ne_of_lt)).mpr hmem
  rw [eq_runs h, hperm.eq_of_pairwise (fun a b _ _ hab hba => absurd hab (Nat.lt_asymm hba))
    hsorted hps]

end Runs

/-! ### Texts of blocks -/

/-- The texts of some blocks, with a comma between two of them. -/
def spansText (numeral : Nat → List Char) (spans : List Span) : List Char :=
  [','].intercalate (spans.map (Span.textWith numeral))

/-- The texts of some blocks, with a comma behind each. -/
def closedText (numeral : Nat → List Char) (spans : List Span) : List Char :=
  spans.flatMap fun s => s.textWith numeral ++ [',']

section Texts
variable {numeral : Nat → List Char}

/-- A text in which every block is closed by a comma, with one more block. -/
theorem closedText_concat (spans : List Span) (s : Span) :
    closedText numeral (spans ++ [s])
      = closedText numeral spans ++ (s.textWith numeral ++ [',']) := by
  rw [closedText, List.flatMap_append, List.flatMap_singleton, ← closedText]

/-- The last block has no comma behind it. -/
theorem spansText_concat (spans : List Span) (s : Span) :
    spansText numeral (spans ++ [s]) = closedText numeral spans ++ s.textWith numeral := by
  induction spans with
  | nil => exact List.intercalate_singleton
  | cons t spans ih =>
      have hmore : (spans ++ [s]).map (Span.textWith numeral) ≠ [] := by simp
      show [','].intercalate (t.textWith numeral :: (spans ++ [s]).map (Span.textWith numeral)) = _
      rw [List.intercalate_cons_of_ne_nil hmore]
      show t.textWith numeral ++ [','] ++ spansText numeral (spans ++ [s]) = _
      have hclosed : closedText numeral (t :: spans)
          = t.textWith numeral ++ [','] ++ closedText numeral spans := List.flatMap_cons
      rw [ih, hclosed, List.append_assoc _ (closedText numeral spans)]

/-- The text of a list has its commas between the items. -/
theorem listText_eq_intercalate (items : List Item) :
    listText items = [','].intercalate (items.map Item.text) := by
  induction items with
  | nil => rfl
  | cons item items ih =>
      cases items with
      | nil =>
          show item.text ++ [] = _
          rw [List.append_nil, List.map_singleton, List.intercalate_singleton]
      | cons next items =>
          rw [List.map_cons, List.map_cons, List.intercalate_cons_cons, ← List.map_cons, ← ih,
            listText, tailText_cons]
          simp

/-- A page is the decimal text of its blocks. -/
theorem pageText_eq_spansText (spans : List Span) : pageText spans = spansText digits spans := by
  have hitems : (spans.map Span.item).map Item.text = spans.map (Span.textWith digits) := by
    rw [List.map_map]
    exact List.map_congr_left fun s _ => s.item_text
  rw [pageText, listText_eq_intercalate, hitems, spansText]

/-- More blocks make a longer text. -/
theorem length_pageText_append_le (spans more : List Span) :
    (pageText spans).length ≤ (pageText (spans ++ more)).length := by
  induction more using List.reverseRecOn with
  | nil => rw [List.append_nil]
  | append_singleton more s ih =>
      rw [← List.append_assoc, pageText_concat, List.length_append]
      omega

end Texts

/-! ### A page for everything -/

section Page
variable {size : Nat} {ps : List Nat}

/-- The printer closes the open block where `runsFrom` does. -/
theorem prints_runsFrom {closed : List Span} {s : Span} {rest : List Nat}
    (h : Prints size ps closed (s.numbers ++ rest))
    (hfits : (pageText (closed ++ runsFrom s rest)).length < size) :
    Prints size ps (closed ++ runsFrom s rest) [] := by
  induction rest generalizing closed s with
  | nil => exact h.step (by simp [Span.Ends]) hfits
  | cons p rest ih =>
      by_cases hp : p = s.last + 1
      · subst hp
        rw [runsFrom_extend] at hfits ⊢
        have hsame : s.numbers ++ (s.last + 1) :: rest = s.extend.numbers ++ rest := by
          rw [Span.numbers_extend, List.append_assoc, List.singleton_append]
        exact ih (hsame ▸ h) hfits
      · -- the open block is printed, and the number opens the next one
        have hsplit : closed ++ runsFrom s (p :: rest)
            = closed ++ [s] ++ runsFrom (.single p) rest := by
          rw [runsFrom_close hp, List.append_assoc, List.singleton_append]
        rw [hsplit] at hfits ⊢
        have hroom : (pageText (closed ++ [s])).length < size :=
          (length_pageText_append_le (closed ++ [s]) (runsFrom (.single p) rest)).trans_lt hfits
        have hends : s.Ends (p :: rest) := by
          intro hhead
          exact hp (Option.some.inj hhead)
        have hsingle : p :: rest = (Span.single p).numbers ++ rest := by
          rw [Span.numbers_single, List.singleton_append]
        have hnext := h.step hends hroom
        exact ih (hsingle ▸ hnext) hfits

/-- A printer with room for all blocks prints them. -/
theorem prints_runs (hfits : (pageText (runs ps)).length < size) : Prints size ps (runs ps) [] := by
  cases ps with
  | nil => exact .start
  | cons p ps =>
      have hstart : Prints size (p :: ps) [] ((Span.single p).numbers ++ ps) := by
        rw [Span.numbers_single, List.singleton_append]
        exact .start
      exact prints_runsFrom hstart hfits

end Page

end MyTestFiles.Lib
