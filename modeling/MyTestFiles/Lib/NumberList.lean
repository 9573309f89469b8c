import Mathlib

/-!
# `MyTestFiles.Lib.NumberList`: texts that list numbers and ranges

The grammar is `item (, item)*` or nothing, where an item is a numeral or two numerals with a
dash between them. `listText` is the text of a list of items. The grammar is unambiguous
(`listText_inj`), and a reader that takes one item after the other either reads the whole
text or stops at a definite place (`read_total`, `Stops`).

What a numeral stands for is a parameter: the meaning of an item is relative to a `value` of
numerals, such as `numeralValue` or what an accumulator of fixed width makes of it.

Ambiguity could come from two places, and both are excluded by the characters alone. A numeral
ends where no digit follows (`NoDigit`), and an item ends where neither a digit nor a dash follows
(`Item.Ends`). The end of the text and a comma satisfy both.

A text that is not in the grammar has a longest part that is (`Stops`). A reader that acts on each
item as it reads it has acted on the items of that part when it fails, so `Stops` is what a
statement about a failed call needs.
-/

set_option autoImplicit false

namespace MyTestFiles.Lib

/-! ### Numerals -/

/-- One or more decimal digits. -/
def IsNumeral (ds : List Char) : Prop := ds ≠ [] ∧ ∀ c ∈ ds, c.isDigit = true

/-- The value of a numeral. -/
def numeralValue (ds : List Char) : Nat := Nat.ofDigitChars 10 ds 0

/-- The same as an integer. -/
def mathValue (ds : List Char) : Int := numeralValue ds

/-- The text does not go on with a digit. -/
def NoDigit (rest : List Char) : Prop := ∀ c tail, rest = c :: tail → c.isDigit = false

section Numerals
variable {ds ds' rest rest' : List Char}

/-- A numeral, from what the definition tests. -/
theorem isNumeral_of_all (hne : ds ≠ []) (hall : ds.all Char.isDigit = true) : IsNumeral ds :=
  ⟨hne, List.all_eq_true.mp hall⟩

/-- The end of a text ends a numeral. -/
theorem noDigit_nil : NoDigit [] := by
  intro c tail h
  cases h

/-- A numeral ends before every character that is no digit. -/
theorem noDigit_cons {c : Char} : NoDigit (c :: rest) ↔ c.isDigit = false := by
  constructor
  · intro h
    exact h c rest rfl
  · intro h c' tail heq
    cases heq
    exact h

/-- A text that starts with a digit starts with a numeral, up to where the digits end. -/
theorem exists_digits (text : List Char) :
    ∃ ds rest, (∀ c ∈ ds, c.isDigit = true) ∧ NoDigit rest ∧ text = ds ++ rest := by
  induction text with
  | nil => exact ⟨[], [], by simp, noDigit_nil, rfl⟩
  | cons c text ih =>
      obtain ⟨ds, rest, hds, hrest, rfl⟩ := ih
      cases hc : c.isDigit with
      | false => exact ⟨[], c :: (ds ++ rest), by simp, noDigit_cons.mpr hc, rfl⟩
      | true =>
          refine ⟨c :: ds, rest, ?_, hrest, rfl⟩
          intro c' hc'
          rcases List.mem_cons.mp hc' with rfl | hmem
          · exact hc
          · exact hds c' hmem

/-- A text that starts with a digit starts with a numeral of greatest length. -/
theorem exists_numeral {c : Char} {text : List Char} (hc : c.isDigit = true) :
    ∃ ds rest, IsNumeral ds ∧ NoDigit rest ∧ c :: text = ds ++ rest := by
  obtain ⟨ds, rest, hds, hrest, heq⟩ := exists_digits (c :: text)
  refine ⟨ds, rest, ⟨?_, hds⟩, hrest, heq⟩
  intro hnil
  rw [hnil, List.nil_append] at heq
  rw [hrest c text heq.symm] at hc
  cases hc

/-- The digits at the start of a text are determined by it. -/
theorem digits_append_inj (hds : ∀ c ∈ ds, c.isDigit = true) (hds' : ∀ c ∈ ds', c.isDigit = true)
    (hrest : NoDigit rest) (hrest' : NoDigit rest') (h : ds ++ rest = ds' ++ rest') :
    ds = ds' ∧ rest = rest' := by
  -- Where one text ends its digits first, the other goes on with what is not a digit.
  induction ds generalizing ds' with
  | nil =>
      cases ds' with
      | nil => exact ⟨rfl, h⟩
      | cons c ds' =>
          have hc : c.isDigit = true := hds' c (by simp)
          rw [hrest c (ds' ++ rest') h] at hc
          cases hc
  | cons c ds ih =>
      have hc : c.isDigit = true := hds c (by simp)
      cases ds' with
      | nil =>
          rw [hrest' c (ds ++ rest) h.symm] at hc
          cases hc
      | cons c' ds' =>
          simp only [List.cons_append, List.cons.injEq] at h
          obtain ⟨rfl, h⟩ := h
          obtain ⟨rfl, rfl⟩ := ih (fun x hx => hds x (by simp [hx]))
            (fun x hx => hds' x (by simp [hx])) h
          exact ⟨rfl, rfl⟩

end Numerals

/-! ### Items -/

/-- A number, or a range with its two ends. -/
inductive Item where
  | number (digits : List Char)
  | range (first last : List Char)

namespace Item

/-- The text of an item: the numeral, or the two numerals with a dash between them. -/
def text : Item → List Char
  | number ds => ds
  | range a b => a ++ '-' :: b

/-- An item is well formed where its numerals are numerals. -/
def WellFormed : Item → Prop
  | number ds => IsNumeral ds
  | range a b => IsNumeral a ∧ IsNumeral b

/-- The numerals of an item. -/
def numerals : Item → List (List Char)
  | number ds => [ds]
  | range a b => [a, b]

/-- All numbers lie between `lo` and `hi`, and a range ascends. -/
def Within (value : List Char → Int) (lo hi : Int) : Item → Prop
  | number ds => lo ≤ value ds ∧ value ds ≤ hi
  | range a b => (lo ≤ value a ∧ value a ≤ hi) ∧ (lo ≤ value b ∧ value b ≤ hi) ∧
      value a < value b

/-- `p` is one of the numbers of an item. -/
def Denotes (value : List Char → Int) (p : Int) : Item → Prop
  | number ds => p = value ds
  | range a b => value a ≤ p ∧ p ≤ value b

/-- A reader that goes on as long as it can ends the item before `rest`. -/
def Ends (rest : List Char) : Item → Prop
  | number _ => NoDigit rest ∧ rest.head? ≠ some '-'
  | range _ _ => NoDigit rest

section Meaning
variable {value value' : List Char → Int} {lo hi : Int} {item : Item}

/-- The meaning depends on the values of the numerals of the item only. -/
theorem within_congr (h : ∀ ds ∈ item.numerals, value ds = value' ds) :
    item.Within value lo hi ↔ item.Within value' lo hi := by
  cases item with
  | number ds => simp only [Within, h ds (by simp [numerals])]
  | range a b => simp only [Within, h a (by simp [numerals]), h b (by simp [numerals])]

/-- The meaning of an item depends on the value of its own numerals only. -/
theorem denotes_congr (h : ∀ ds ∈ item.numerals, value ds = value' ds) (p : Int) :
    item.Denotes value p ↔ item.Denotes value' p := by
  cases item with
  | number ds => simp only [Denotes, h ds (by simp [numerals])]
  | range a b => simp only [Denotes, h a (by simp [numerals]), h b (by simp [numerals])]

/-- The values of the numerals of an item lie between the bounds. -/
theorem Within.value_mem (h : item.Within value lo hi) {ds : List Char}
    (hds : ds ∈ item.numerals) : lo ≤ value ds ∧ value ds ≤ hi := by
  cases item with
  | number ds' =>
      rw [numerals, List.mem_singleton] at hds
      subst hds
      exact h
  | range a b =>
      simp only [numerals, List.mem_cons, List.not_mem_nil, or_false] at hds
      rcases hds with rfl | rfl
      · exact h.1
      · exact h.2.1

/-- The numbers that an item denotes lie between the bounds. -/
theorem Within.mem_of_denotes (h : item.Within value lo hi) {p : Int}
    (hp : item.Denotes value p) : lo ≤ p ∧ p ≤ hi := by
  cases item with
  | number ds => exact hp ▸ h
  | range a b => exact ⟨h.1.1.trans hp.1, hp.2.trans h.2.1.2⟩

end Meaning

section Text
variable {item item' : Item} {rest rest' : List Char}

/-- The text of an item starts with a digit. -/
theorem WellFormed.exists_text_eq_cons (h : item.WellFormed) :
    ∃ c tail, item.text = c :: tail ∧ c.isDigit = true := by
  cases item with
  | number ds =>
      obtain ⟨c, tail, rfl⟩ := List.exists_cons_of_ne_nil h.1
      exact ⟨c, tail, rfl, h.2 c (by simp)⟩
  | range a b =>
      obtain ⟨c, tail, rfl⟩ := List.exists_cons_of_ne_nil h.1.1
      exact ⟨c, tail ++ '-' :: b, rfl, h.1.2 c (by simp)⟩

/-- A dash ends a numeral. -/
theorem noDigit_dash (rest : List Char) : NoDigit ('-' :: rest) := noDigit_cons.mpr rfl

/-- The item at the start of a text is determined by it. -/
theorem text_append_inj (h : item.WellFormed) (h' : item'.WellFormed) (hends : item.Ends rest)
    (hends' : item'.Ends rest') (heq : item.text ++ rest = item'.text ++ rest') :
    item = item' ∧ rest = rest' := by
  cases item with
  | number ds =>
      cases item' with
      | number ds' =>
          obtain ⟨rfl, rfl⟩ := digits_append_inj h.2 h'.2 hends.1 hends'.1 heq
          exact ⟨rfl, rfl⟩
      | range a b =>
          -- the dash would have to follow the number
          rw [text, text, List.append_assoc] at heq
          obtain ⟨-, rfl⟩ := digits_append_inj h.2 h'.1.2 hends.1 (noDigit_dash _) heq
          exact absurd rfl hends.2
  | range a b =>
      cases item' with
      | number ds' =>
          rw [text, text, List.append_assoc] at heq
          obtain ⟨-, rfl⟩ := digits_append_inj h.1.2 h'.2 (noDigit_dash _) hends'.1 heq
          exact absurd rfl hends'.2
      | range a' b' =>
          rw [text, text, List.append_assoc, List.append_assoc] at heq
          obtain ⟨rfl, hsecond⟩ :=
            digits_append_inj h.1.2 h'.1.2 (noDigit_dash _) (noDigit_dash _) heq
          simp only [List.cons.injEq, true_and] at hsecond
          obtain ⟨rfl, rfl⟩ := digits_append_inj h.2.2 h'.2.2 hends hends' hsecond
          exact ⟨rfl, rfl⟩

/-- The end of the text ends every item. -/
theorem ends_nil (item : Item) : item.Ends [] := by
  cases item with
  | number ds => exact ⟨noDigit_nil, by simp⟩
  | range a b => exact noDigit_nil

/-- A comma ends every item. -/
theorem ends_comma (item : Item) (rest : List Char) : item.Ends (',' :: rest) := by
  have hcomma : NoDigit (',' :: rest) := noDigit_cons.mpr rfl
  cases item with
  | number ds => exact ⟨hcomma, by simp⟩
  | range a b => exact hcomma

/-- A text that starts with a digit starts with an item, or with a numeral and a dash that no
digit follows. -/
theorem exists_item {c : Char} {text : List Char} (hc : c.isDigit = true) :
    (∃ (item : Item) (rest : List Char), item.WellFormed ∧ item.Ends rest ∧
      c :: text = item.text ++ rest) ∨
    ∃ ds rest, IsNumeral ds ∧ NoDigit rest ∧ c :: text = ds ++ '-' :: rest := by
  obtain ⟨ds, rest, hds, hrest, heq⟩ := @exists_numeral c text hc
  by_cases hdash : rest.head? = some '-'
  · obtain ⟨tail, rfl⟩ : ∃ tail, rest = '-' :: tail := by
      cases rest with
      | nil => cases hdash
      | cons x tail =>
          cases hdash
          exact ⟨tail, rfl⟩
    obtain ⟨ds', rest', hds', hrest', rfl⟩ := exists_digits tail
    by_cases hnil : ds' = []
    · subst hnil
      exact Or.inr ⟨ds, rest', hds, hrest', heq⟩
    · refine Or.inl ⟨.range ds ds', rest', ⟨hds, hnil, hds'⟩, hrest', ?_⟩
      rw [heq, Item.text, List.append_assoc, List.cons_append]
  · exact Or.inl ⟨.number ds, rest, hds, ⟨hrest, hdash⟩, heq⟩

end Text

end Item

/-! ### Lists of items -/

/-- The text behind the first item. -/
def tailText (items : List Item) : List Char := items.flatMap fun item => ',' :: item.text

/-- The text of a list of items. -/
def listText : List Item → List Char
  | [] => []
  | item :: items => item.text ++ tailText items

/-- The text of items with a comma behind each. -/
def prefixText (items : List Item) : List Char := items.flatMap fun item => item.text ++ [',']

section Lists
variable {items items' : List Item}

/-- What follows an item is a comma and the list of the others. -/
theorem tailText_cons (item : Item) (items : List Item) :
    tailText (item :: items) = ',' :: listText (item :: items) := rfl

/-- Nothing read is no text. -/
@[simp] theorem prefixText_nil : prefixText [] = [] := rfl

/-- What has been read starts with the first item and its comma. -/
theorem prefixText_cons (item : Item) (items : List Item) (rest : List Char) :
    prefixText (item :: items) ++ rest = item.text ++ ',' :: (prefixText items ++ rest) := by
  simp [prefixText]

/-- Every item that was read took a character at least, which bounds the passes of a reader. -/
theorem length_le_prefixText (items : List Item) : items.length ≤ (prefixText items).length := by
  induction items with
  | nil => rfl
  | cons item items ih =>
      have hcons := prefixText_cons item items []
      rw [List.append_nil, List.append_nil] at hcons
      rw [hcons, List.length_append, List.length_cons, List.length_cons]
      omega

/-- The last item has no comma behind it. -/
theorem listText_concat (items : List Item) (last : Item) :
    listText (items ++ [last]) = prefixText items ++ last.text := by
  induction items with
  | nil =>
      show last.text ++ tailText [] = last.text
      rw [tailText, List.flatMap_nil, List.append_nil]
  | cons item items ih =>
      rw [prefixText_cons, ← ih]
      cases items with
      | nil => rfl
      | cons next items => rfl

/-- What follows an item in a list ends it. -/
theorem ends_tailText (item : Item) (items : List Item) : item.Ends (tailText items) := by
  cases items with
  | nil => exact item.ends_nil
  | cons next items => exact item.ends_comma _

/-- The list behind an item is determined by its text. -/
theorem tailText_inj (h : ∀ item ∈ items, item.WellFormed) (h' : ∀ item ∈ items', item.WellFormed)
    (heq : tailText items = tailText items') : items = items' := by
  induction items generalizing items' with
  | nil =>
      cases items' with
      | nil => rfl
      | cons item' items' => cases heq
  | cons item items ih =>
      cases items' with
      | nil => cases heq
      | cons item' items' =>
          simp only [tailText_cons, listText, List.cons.injEq, true_and] at heq
          obtain ⟨rfl, htail⟩ := Item.text_append_inj (h item (by simp)) (h' item' (by simp))
            (ends_tailText item items) (ends_tailText item' items') heq
          rw [ih (fun x hx => h x (by simp [hx])) (fun x hx => h' x (by simp [hx])) htail]

/-- The grammar is unambiguous. -/
theorem listText_inj (h : ∀ item ∈ items, item.WellFormed) (h' : ∀ item ∈ items', item.WellFormed)
    (heq : listText items = listText items') : items = items' := by
  apply tailText_inj h h'
  cases items with
  | nil =>
      cases items' with
      | nil => rfl
      | cons item' items' =>
          obtain ⟨c, tail, htext, -⟩ := (h' item' (by simp)).exists_text_eq_cons
          rw [listText, listText, htext] at heq
          cases heq
  | cons item items =>
      cases items' with
      | nil =>
          obtain ⟨c, tail, htext, -⟩ := (h item (by simp)).exists_text_eq_cons
          rw [listText, listText, htext] at heq
          cases heq
      | cons item' items' => rw [tailText_cons, tailText_cons, heq]

end Lists

/-! ### Reading -/

section Reading
variable (good : Item → Prop)

/-- The text begins with a good item. -/
def BeginsWith (text : List Char) : Prop :=
  ∃ item rest, good item ∧ item.Ends rest ∧ text = item.text ++ rest

/-- A reader of good items takes `items` from the text and then stops short of its end. -/
inductive Stops (text : List Char) (items : List Item) : Prop
  /-- There is no good item behind the last comma. -/
  | item (rest : List Char) (htext : text = prefixText items ++ rest) (hne : rest ≠ [])
      (hbad : ¬BeginsWith good rest)
  /-- There is no comma behind the last item, or nothing behind the comma. -/
  | separator (init : List Item) (last : Item) (rest : List Char) (hitems : items = init ++ [last])
      (htext : text = prefixText init ++ (last.text ++ rest)) (hends : last.Ends rest)
      (hne : rest ≠ []) (hbad : rest.head? ≠ some ',' ∨ rest = [','])

variable {good}

/-- One more good item in front. -/
theorem Stops.cons {rest : List Char} {items : List Item} (h : Stops good rest items)
    (item : Item) : Stops good (item.text ++ ',' :: rest) (item :: items) := by
  cases h with
  | item tail htext hne hbad =>
      refine .item tail ?_ hne hbad
      rw [prefixText_cons, htext]
  | separator init last tail hitems htext hends hne hbad =>
      refine .separator (item :: init) last tail ?_ ?_ hends hne hbad
      · rw [hitems, List.cons_append]
      · rw [prefixText_cons, htext]

/-- Every text is read to its end, or the reader stops somewhere. -/
theorem read_total (text : List Char) :
    (∃ items, text = listText items ∧ ∀ item ∈ items, good item) ∨
      ∃ items, (∀ item ∈ items, good item) ∧ Stops good text items := by
  -- The induction is on the length, since an item may have any number of characters.
  induction hlen : text.length using Nat.strong_induction_on generalizing text with
  | _ k ih =>
  by_cases hnil : text = []
  · exact Or.inl ⟨[], hnil, by simp⟩
  by_cases hbegins : BeginsWith good text
  · obtain ⟨item, rest, hgood, hends, rfl⟩ := hbegins
    cases rest with
    | nil => exact Or.inl ⟨[item], by simp [listText, tailText], by simpa using hgood⟩
    | cons c rest =>
        by_cases hc : c = ','
        · subst hc
          by_cases hrest : rest = []
          · subst hrest
            exact Or.inr ⟨[item], by simpa using hgood,
              .separator [] item [','] rfl rfl hends (by simp) (Or.inr rfl)⟩
          · -- the text behind the comma is shorter
            have hlt : rest.length < k := by
              rw [← hlen, List.length_append, List.length_cons]
              omega
            rcases ih rest.length hlt rest rfl with ⟨items, rfl, hitems⟩ | ⟨items, hitems, hstops⟩
            · refine Or.inl ⟨item :: items, ?_, by simpa using ⟨hgood, hitems⟩⟩
              cases items with
              | nil => exact absurd rfl hrest
              | cons next items => rfl
            · exact Or.inr ⟨item :: items, by simpa using ⟨hgood, hitems⟩, hstops.cons item⟩
        · exact Or.inr ⟨[item], by simpa using hgood,
            .separator [] item (c :: rest) rfl rfl hends (by simp) (Or.inl (by simpa using hc))⟩
  · exact Or.inr ⟨[], by simp, .item text rfl hnil hbegins⟩

end Reading

end MyTestFiles.Lib
