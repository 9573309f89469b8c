import MyTestFiles.Lib.NumberList
import MyTestFiles.Proofs.Bitlist.Mutators

/-!
# `MyTestFiles.Proofs.Bitlist.Parser`: what `bitlist_from_string` reads

The parser reads the grammar of number lists, with the numbers as an `int` accumulates them
(`intValue`). `fromString_accepts`, `fromString_rejects` and `fromString_hangs` are the three
ends of a call, one for each way to read a text: to its end, up to an error, or up to a range
whose last number is the largest `int`, where the loop over the range does not end.

`Adds` says what becomes of the bits: those of the items that were read come to the old ones.

* `Adds` is kept by `bitlist_set`, by the loop over a range and by the passes of the parser, each
  with the numbers it reads. `Adds.trans` puts them together.
* A range whose last number is the largest `int` never ends: the counter of `setRangePass` wraps
  and is below the end again. In the model the loop then has no result for any fuel, and
  `fromString_hangs` says so.
* An error leaves the items before it in the list. The source does not roll back, and
  `fromString_rejects` says what is there.
-/

set_option autoImplicit false

namespace MyTestFiles.Proofs.Bitlist

open MyTestFiles.Lib
open MyTestFiles.Bitlist

/-! ### Bits that come to a list -/

/-- The bits of the list afterwards are the old ones and those of the positions in `P`. -/
structure Adds (n b : Nat) (P : Int → Prop) (bl bl' : BitlistT) : Prop where
  geometry : HasGeometry n b bl'
  bits : ∀ o < n, (bitAt bl'.bits o = true ↔
    bitAt bl.bits o = true ∨ ∃ p, P p ∧ int32 (p - b) = o)

section Adding
variable {n b : Nat} {P Q : Int → Prop} {bl bl' bl'' : BitlistT}

/-- A list that is not touched has gained nothing. -/
theorem Adds.refl (h : HasGeometry n b bl) : Adds n b (fun _ => False) bl bl where
  geometry := h
  bits := by simp

/-- One step after the other adds what both add. -/
theorem Adds.trans (h : Adds n b P bl bl') (h' : Adds n b Q bl' bl'') :
    Adds n b (fun p => P p ∨ Q p) bl bl'' where
  geometry := h'.geometry
  bits := by
    intro o ho
    rw [h'.bits o ho, h.bits o ho, or_assoc]
    simp only [or_and_right, exists_or]

/-- What is added, in other words. -/
theorem Adds.congr (h : Adds n b P bl bl') (hPQ : ∀ p, P p ↔ Q p) : Adds n b Q bl bl' where
  geometry := h.geometry
  bits := by
    intro o ho
    simp only [h.bits o ho, hPQ]

/-- `bitlist_set` adds one number. Outside the list it changes nothing and does not fault. -/
theorem set_adds (h : HasGeometry n b bl) (bit : Int) :
    ∃ bl', bitlistSet bl bit = some bl' ∧ Adds n b (fun p => p = bit) bl bl' := by
  obtain ⟨bl', hcall, hgeo, hbits⟩ := set_spec h bit
  refine ⟨bl', hcall, hgeo, ?_⟩
  intro o ho
  rw [hbits o]
  by_cases hhit : int32 (bit - b) = o
  · simp [hhit, ho]
  · simp [hhit]

/-- `bitlist_test` after some positions came to a list. A position is an `int`. -/
theorem Adds.test (h : Adds n b P bl bl') (hgeo : HasGeometry n b bl)
    (hint : ∀ p, P p → int32 p = p) {p : Int} (hp : int32 p = p)
    (hvalid : 0 ≤ int32 (p - b) ∧ int32 (p - b) < n) :
    bitlistTest bl' p = some true ↔ bitlistTest bl p = some true ∨ P p := by
  obtain ⟨o, ho⟩ := Int.eq_ofNat_of_zero_le hvalid.1
  have hlt : o < n := by omega
  rw [h.geometry.test_of_offset ho hlt, hgeo.test_of_offset ho hlt, Option.some.injEq,
    Option.some.injEq, h.bits o hlt]
  have hposition : (∃ q, P q ∧ int32 (q - b) = o) ↔ P p := by
    constructor
    · rintro ⟨q, hq, hoffset⟩
      -- two `int`s with the same offset are the same
      have hsame : q = p := by
        have hqint := hint q hq
        simp only [int32] at hqint hp hoffset ho
        omega
      exact hsame ▸ hq
    · intro hP
      exact ⟨p, hP, ho⟩
  rw [hposition]

end Adding

/-! ### The loop over a range -/

section Range
variable {n b : Nat} {bl : BitlistT} {begin number : Int}

/-- A pass of the loop over a range adds the counter, and goes on with the next as an `int`. -/
theorem setRangePass_again (h : HasGeometry n b bl) {i : Int} (hle : i ≤ number) :
    ∃ bl', setRangePass number (bl, i) = some (.again (bl', int32 (i + 1))) ∧
      Adds n b (fun p => p = i) bl bl' := by
  obtain ⟨bl', hcall, hadds⟩ := set_adds h i
  refine ⟨bl', ?_, hadds⟩
  simp only [setRangePass]
  rw [if_pos hle, hcall]
  rfl

/-- The positions before `i` are set, and `k` are left. -/
def RangeDone (n b : Nat) (bl : BitlistT) (begin number : Int) (k : Nat) (s : BitlistT × Int) :
    Prop :=
  begin ≤ s.2 ∧ k = (number + 1 - s.2).toNat ∧ s.2 ≤ number + 1 ∧
    Adds n b (fun p => begin ≤ p ∧ p < s.2) bl s.1

/-- The loop over a range adds all of its numbers, where its end is not the largest `int`. -/
theorem setRange_adds (h : HasGeometry n b bl) (hbegin : int32 begin = begin)
    (hle : begin ≤ number) (hmax : number < intMax) :
    ∃ bl', setRange bl begin number = some bl' ∧
      Adds n b (fun p => begin ≤ p ∧ p ≤ number) bl bl' := by
  have hlow := le_int32 begin
  have hpass : ∀ k s, RangeDone n b bl begin number k s →
      PassOk (setRangePass number) (RangeDone n b bl begin number)
        (fun bl' => Adds n b (fun p => begin ≤ p ∧ p ≤ number) bl bl') k s := by
    intro k s hs
    obtain ⟨bl₁, i⟩ := s
    obtain ⟨hi, hk, hend, hadds⟩ := hs
    simp only at hi hk hend hadds
    by_cases hin : i ≤ number
    · obtain ⟨bl₂, hbody, hadds'⟩ := setRangePass_again hadds.geometry hin
      -- the number is not the largest `int`, so that the counter does not wrap
      have hnext : int32 (i + 1) = i + 1 := by
        simp only [intMax] at hmax
        rw [int32_of_range] <;> omega
      rw [hnext] at hbody
      refine Or.inl ⟨_, k - 1, hbody, ⟨by omega, by omega, by omega, ?_⟩, by omega⟩
      refine (hadds.trans hadds').congr ?_
      intro p
      omega
    · refine Or.inr ⟨bl₁, ?_, hadds.congr ?_⟩
      · simp only [setRangePass]
        rw [if_neg hin]
      · intro p
        omega
  have hstart : RangeDone n b bl begin number (number + 1 - begin).toNat (bl, begin) :=
    ⟨le_rfl, rfl, by simp only; omega, (Adds.refl h).congr (by intro p; simp)⟩
  exact loop_rule (RangeDone n b bl begin number) hpass hstart (by omega)

/-- Up to the largest `int` the loop never ends. -/
theorem setRange_endless (h : HasGeometry n b bl) (hbegin : int32 begin = begin) :
    setRange bl begin intMax = none := by
  refine loop_eq_none (fun s : BitlistT × Int => HasGeometry n b s.1 ∧ int32 s.2 = s.2) ?_
    ⟨h, hbegin⟩ _
  intro s hs
  obtain ⟨bl₁, i⟩ := s
  have hle : i ≤ intMax := by
    have hlt := int32_lt i
    rw [hs.2] at hlt
    simp only [intMax]
    omega
  obtain ⟨bl₂, hbody, hadds⟩ := setRangePass_again hs.1 hle
  refine .inr ⟨_, hbody, hadds.geometry, ?_⟩
  exact int32_of_range (le_int32 _) (int32_lt _)

end Range

/-! ### One item -/

/-- The value of a numeral in an `int`. -/
def intValue (ds : List Char) : Int := int32 (numeralValue ds)

/-- What the accumulator holds is an `int`. -/
theorem int32_intValue (ds : List Char) : int32 (intValue ds) = intValue ds :=
  int32_of_range (le_int32 _) (int32_lt _)

/-- `isdigit` in the C locale. -/
theorem isDigit_eq (c : Char) : isDigit c = c.isDigit := by
  simp only [isDigit, Char.isDigit, Char.le_def]

section Digits
variable {rest ds : List Char}

/-- Where no digit is left the loop over a numeral ends. -/
theorem readNumber_rest (hrest : NoDigit rest) (number charno : Int) :
    readNumber rest number charno = (rest, number, charno) := by
  cases rest with
  | nil => rfl
  | cons c tail =>
      have hc : isDigit c = false := by
        rw [isDigit_eq]
        exact hrest c tail rfl
      simp only [readNumber, hc]
      rfl

/-- The digit loop takes a numeral up to its end. The number wraps. -/
theorem readNumber_append (hds : ∀ c ∈ ds, c.isDigit = true) (hrest : NoDigit rest) (v : Nat)
    (charno : Int) :
    ∃ charno', readNumber (ds ++ rest) (int32 v) charno
      = (rest, int32 (Nat.ofDigitChars 10 ds v), charno') := by
  induction ds generalizing v charno with
  | nil => exact ⟨charno, readNumber_rest hrest _ charno⟩
  | cons c ds ih =>
      have hc : c.isDigit = true := hds c (by simp)
      have hzero : '0'.toNat ≤ c.toNat := by
        rw [← isDigit_eq, isDigit, Bool.and_eq_true, decide_eq_true_eq] at hc
        exact hc.1
      have hstep : int32 (int32 v * 10 + c.toNat - '0'.toNat)
          = int32 ((10 * v + (c.toNat - '0'.toNat) : Nat) : Int) := by
        rw [Nat.cast_add, Nat.cast_sub hzero]
        simp only [int32]
        omega
      obtain ⟨charno', htail⟩ := ih (fun x hx => hds x (by simp [hx]))
        (10 * v + (c.toNat - '0'.toNat)) (int32 (charno + 1))
      refine ⟨charno', ?_⟩
      rw [List.cons_append, readNumber, if_pos (by rw [isDigit_eq, hc]), hstep, htail,
        Nat.ofDigitChars_cons]

/-- The digit loop from zero on. -/
theorem readNumber_numeral (hds : IsNumeral ds) (hrest : NoDigit rest) (charno : Int) :
    ∃ charno', readNumber (ds ++ rest) 0 charno = (rest, intValue ds, charno') :=
  readNumber_append hds.2 hrest 0 charno

end Digits

/-- The call ends with an error and leaves the list alone. -/
def Rejects (bl : BitlistT) (call : Option (ParseState × Option ParseError)) : Prop :=
  ∃ s error, call = some (s, some error) ∧ s.bl = bl

/-- The call reads up to `rest`, and the positions in `P` come to the list. -/
def Reads (n b : Nat) (P : Int → Prop) (bl : BitlistT) (rest : List Char)
    (call : Option (ParseState × Option ParseError)) : Prop :=
  ∃ s, call = some (s, none) ∧ s.list = rest ∧ Adds n b P bl s.bl

/-- A range up to the largest `int`. -/
def Endless : Item → Prop
  | .number _ => False
  | .range _ b => intValue b = intMax

section Items
variable {n b : Nat} {min max : Int} {s : ParseState} {ds rest : List Char}

/-- Behind the dash there is no digit. -/
theorem parseRange_noDigit (hlist : NoDigit s.list) : Rejects s.bl (parseRange min max s) := by
  simp only [parseRange]
  split
  · exact ⟨s, _, rfl, rfl⟩
  · rename_i c tail hcons
    have hc : isDigit c = false := by
      rw [isDigit_eq]
      exact hlist c tail hcons
    rw [hc]
    exact ⟨s, _, rfl, rfl⟩

/-- Behind the dash there is a numeral. -/
theorem parseRange_numeral (hds : IsNumeral ds) (hrest : NoDigit rest)
    (hlist : s.list = ds ++ rest) (hnumber : s.number = 0) :
    ∃ t : ParseState, t.list = rest ∧ t.bl = s.bl ∧ parseRange min max s
      = if intValue ds < min ∨ intValue ds > max then some (t, some .outOfBounds)
        else if s.begin ≥ intValue ds then some (t, some .invRange)
        else (setRange s.bl s.begin (intValue ds)).map fun bl => ({ t with bl := bl }, none) := by
  obtain ⟨charno, hread⟩ := readNumber_numeral hds hrest s.charno
  obtain ⟨c, tail, rfl⟩ := List.exists_cons_of_ne_nil hds.1
  have hc : isDigit c = true := by
    rw [isDigit_eq]
    exact hds.2 c (by simp)
  refine ⟨{ s with list := rest, number := intValue (c :: tail), charno := charno }, rfl, rfl, ?_⟩
  obtain ⟨bl, list, number, begin, charno₀⟩ := s
  simp only at hlist hnumber hread
  subst hlist hnumber
  rw [List.cons_append] at hread
  simp only [parseRange, List.cons_append, hread, hc, Bool.not_true, Bool.false_eq_true, if_false,
    Option.bind_eq_bind, Option.map_eq_bind, Function.comp_def]

/-- A number that no dash follows. -/
theorem parseItem_number (hds : IsNumeral ds) (hrest : NoDigit rest)
    (hdash : rest.head? ≠ some '-') (hlist : s.list = ds ++ rest) :
    ∃ t : ParseState, t.list = rest ∧ t.bl = s.bl ∧ parseItem min max s
      = if intValue ds < min ∨ intValue ds > max then some (t, some .outOfBounds)
        else (bitlistSet s.bl (intValue ds)).map fun bl => ({ t with bl := bl }, none) := by
  obtain ⟨charno, hread⟩ := readNumber_numeral hds hrest s.charno
  refine ⟨{ s with list := rest, number := intValue ds, charno := charno }, rfl, rfl, ?_⟩
  obtain ⟨bl, list, number, begin, charno₀⟩ := s
  simp only at hlist hread
  subst hlist
  simp only [parseItem, hread]
  refine ite_congr rfl (fun _ => rfl) fun _ => ?_
  split
  · exact absurd rfl hdash
  · simp only [Option.bind_eq_bind, Option.map_eq_bind, Function.comp_def]

/-- A number with a dash behind it. -/
theorem parseItem_dash (hds : IsNumeral ds) (hlist : s.list = ds ++ '-' :: rest) :
    ∃ t u : ParseState, t.bl = s.bl ∧ u.bl = s.bl ∧ u.list = rest ∧ u.begin = intValue ds ∧
      u.number = 0 ∧ parseItem min max s
        = if intValue ds < min ∨ intValue ds > max then some (t, some .outOfBounds)
          else parseRange min max u := by
  obtain ⟨charno, hread⟩ := readNumber_numeral hds (Item.noDigit_dash rest) s.charno
  refine ⟨{ s with list := '-' :: rest, number := intValue ds, charno := charno },
    { s with list := rest, number := 0, begin := intValue ds, charno := int32 (charno + 1) },
    rfl, rfl, rfl, rfl, rfl, ?_⟩
  obtain ⟨bl, list, number, begin, charno₀⟩ := s
  simp only at hlist hread
  subst hlist
  simp only [parseItem, hread]

/-- A good item is read, and its positions come to the list. -/
theorem parseItem_reads (h : HasGeometry n b s.bl) {item : Item} (hwf : item.WellFormed)
    (hends : item.Ends rest) (hwithin : item.Within intValue min max) (hend : ¬Endless item)
    (hlist : s.list = item.text ++ rest) :
    Reads n b (item.Denotes intValue ·) s.bl rest (parseItem min max s) := by
  cases item with
  | number ds =>
      obtain ⟨hlow, hhigh⟩ := hwithin
      obtain ⟨t, ht, -, hitem⟩ :=
        @parseItem_number min max s ds rest hwf hends.1 hends.2 hlist
      obtain ⟨bl, hset, hadds⟩ := set_adds h (intValue ds)
      rw [if_neg (by omega), hset] at hitem
      exact ⟨_, hitem, ht, hadds⟩
  | range a b =>
      obtain ⟨⟨hlow, hhigh⟩, ⟨hlow', hhigh'⟩, hlt⟩ := hwithin
      rw [Item.text, List.append_assoc] at hlist
      obtain ⟨t, u, -, hbl, htail, hbegin, hnumber, hitem⟩ :=
        @parseItem_dash min max s a (b ++ rest) hwf.1 hlist
      obtain ⟨v, hv, -, hrange⟩ :=
        @parseRange_numeral min max u b rest hwf.2 hends htail hnumber
      -- not the endless range
      have hmax : intValue b < intMax := by
        have hle := int32_lt (numeralValue b)
        have hne : intValue b ≠ intMax := hend
        simp only [intMax, intValue] at hne ⊢
        omega
      obtain ⟨bl, hset, hadds⟩ := setRange_adds h (int32_intValue a) hlt.le hmax
      rw [if_neg (by omega), hbegin, if_neg (by omega), hbl, hset] at hrange
      rw [if_neg (by omega), hrange] at hitem
      exact ⟨_, hitem, hv, hadds⟩

/-- A range up to the largest `int` is never read to its end. -/
theorem parseItem_endless (h : HasGeometry n b s.bl) {item : Item} (hwf : item.WellFormed)
    (hends : item.Ends rest) (hwithin : item.Within intValue min max) (hend : Endless item)
    (hlist : s.list = item.text ++ rest) : parseItem min max s = none := by
  cases item with
  | number ds => exact absurd hend id
  | range a b =>
      obtain ⟨⟨hlow, hhigh⟩, ⟨hlow', hhigh'⟩, hlt⟩ := hwithin
      rw [Item.text, List.append_assoc] at hlist
      obtain ⟨t, u, -, hbl, htail, hbegin, hnumber, hitem⟩ :=
        @parseItem_dash min max s a (b ++ rest) hwf.1 hlist
      obtain ⟨v, hv, -, hrange⟩ :=
        @parseRange_numeral min max u b rest hwf.2 hends htail hnumber
      have hmax : intValue b = intMax := hend
      rw [if_neg (by omega), hbegin, if_neg (by omega), hbl, hmax,
        setRange_endless h (int32_intValue a)] at hrange
      rw [if_neg (by omega), hrange] at hitem
      exact hitem

/-- An item with a number out of range, or a range that does not ascend. -/
theorem parseItem_rejects {item : Item} (hwf : item.WellFormed) (hends : item.Ends rest)
    (hwithin : ¬item.Within intValue min max) (hlist : s.list = item.text ++ rest) :
    Rejects s.bl (parseItem min max s) := by
  cases item with
  | number ds =>
      obtain ⟨t, -, hbl, hitem⟩ :=
        @parseItem_number min max s ds rest hwf hends.1 hends.2 hlist
      rw [if_pos (by simp only [Item.Within] at hwithin; omega)] at hitem
      exact ⟨t, _, hitem, hbl⟩
  | range a b =>
      rw [Item.text, List.append_assoc] at hlist
      obtain ⟨t, u, hbl, hbl', htail, hbegin, hnumber, hitem⟩ :=
        @parseItem_dash min max s a (b ++ rest) hwf.1 hlist
      obtain ⟨v, -, hbl'', hrange⟩ :=
        @parseRange_numeral min max u b rest hwf.2 hends htail hnumber
      -- the checks in the order of the code: the first number, the second one, the order
      by_cases hfirst : intValue a < min ∨ intValue a > max
      · rw [if_pos hfirst] at hitem
        exact ⟨t, _, hitem, hbl⟩
      · rw [if_neg hfirst, hrange, hbegin] at hitem
        have hv : v.bl = s.bl := hbl''.trans hbl'
        by_cases hsecond : intValue b < min ∨ intValue b > max
        · rw [if_pos hsecond] at hitem
          exact ⟨v, _, hitem, hv⟩
        · rw [if_neg hsecond, if_pos (by simp only [Item.Within] at hwithin; omega)] at hitem
          exact ⟨v, _, hitem, hv⟩

/-- A dash that no digit follows. -/
theorem parseItem_dash_rejects (hds : IsNumeral ds) (hrest : NoDigit rest)
    (hlist : s.list = ds ++ '-' :: rest) : Rejects s.bl (parseItem min max s) := by
  obtain ⟨t, u, hbl, hbl', htail, -, -, hitem⟩ := @parseItem_dash min max s ds rest hds hlist
  by_cases hfirst : intValue ds < min ∨ intValue ds > max
  · rw [if_pos hfirst] at hitem
    exact ⟨t, _, hitem, hbl⟩
  · rw [if_neg hfirst] at hitem
    rw [← htail] at hrest
    obtain ⟨v, error, hrange, hv⟩ := @parseRange_noDigit min max u hrest
    exact ⟨v, error, hitem.trans hrange, hv.trans hbl'⟩

end Items

/-! ### One pass -/

/-- An item that the parser reads and gets to the end of. -/
def Readable (min max : Int) (item : Item) : Prop :=
  item.WellFormed ∧ item.Within intValue min max ∧ ¬Endless item

/-- The parser gets to a range that it never gets to the end of. -/
def ReachesEndless (min max : Int) (text : List Char) : Prop :=
  ∃ items item rest, text = prefixText items ++ (item.text ++ rest) ∧
    (∀ i ∈ items, Readable min max i) ∧ item.WellFormed ∧ item.Ends rest ∧
    item.Within intValue min max ∧ Endless item

section Passes
variable {n b : Nat} {min max : Int} {s : ParseState} {rest : List Char}

/-- A comma is skipped, and the next item follows. -/
theorem parseSeparator_comma (hlist : s.list = ',' :: rest) (hne : rest ≠ []) :
    ∃ t, parseSeparator s = (t, none) ∧ t.list = rest ∧ t.bl = s.bl := by
  obtain ⟨c, tail, rfl⟩ := List.exists_cons_of_ne_nil hne
  refine ⟨{ s with list := c :: tail, charno := int32 (s.charno + 1) }, ?_, rfl, rfl⟩
  simp [parseSeparator, hlist]

/-- Something else than a comma, or a comma at the end. -/
theorem parseSeparator_error (hne : s.list ≠ []) (hbad : s.list.head? ≠ some ',' ∨ s.list = [',']) :
    ∃ t error, parseSeparator s = (t, some error) ∧ t.bl = s.bl := by
  simp only [parseSeparator]
  split
  · rename_i hnil
    exact absurd hnil hne
  · rename_i list hcons
    rw [hcons] at hbad
    rcases hbad with hhead | htail
    · exact absurd rfl hhead
    · cases htail
      exact ⟨_, _, rfl, rfl⟩
  · exact ⟨s, _, rfl, rfl⟩

/-- A pass over a text that starts with a digit. -/
theorem parsePass_digit {c : Char} {text : List Char} (hlist : s.list = c :: text)
    (hc : c.isDigit = true) :
    parsePass min max s = (parseItem min max s).bind fun r =>
      if r.2.isSome then some (.done r)
      else if (parseSeparator r.1).2.isSome then some (.done (parseSeparator r.1))
      else some (.again (parseSeparator r.1).1) := by
  rw [← isDigit_eq] at hc
  simp only [parsePass, hlist, hc, Bool.not_true, Bool.false_eq_true, if_false,
    Option.bind_eq_bind]

/-- A text that does not begin with a good item. -/
theorem parsePass_rejects (hne : s.list ≠ [])
    (hbad : ¬BeginsWith (fun item => item.WellFormed ∧ item.Within intValue min max) s.list) :
    ∃ t error, parsePass min max s = some (.done (t, some error)) ∧ t.bl = s.bl := by
  obtain ⟨c, text, hlist⟩ := List.exists_cons_of_ne_nil hne
  -- A text that begins with a digit begins with an item or with a range without an end.
  by_cases hc : c.isDigit = true
  · have hitem : Rejects s.bl (parseItem min max s) := by
      rcases @Item.exists_item c text hc with
        ⟨item, rest, hwf, hends, heq⟩ | ⟨ds, rest, hds, hrest, heq⟩
      · have hwithin : ¬item.Within intValue min max := by
          intro hwithin
          exact hbad ⟨item, rest, ⟨hwf, hwithin⟩, hends, hlist.trans heq⟩
        exact parseItem_rejects hwf hends hwithin (hlist.trans heq)
      · exact parseItem_dash_rejects hds hrest (hlist.trans heq)
    obtain ⟨t, error, hcall, hbl⟩ := hitem
    refine ⟨t, error, ?_, hbl⟩
    rw [parsePass_digit hlist hc]
    exact bind_of_some hcall
  · have hc' : isDigit c = false := by
      rw [isDigit_eq]
      simpa using hc
    refine ⟨s, .nonNumeric, ?_, rfl⟩
    simp only [parsePass, hlist, hc']
    rfl

variable {item : Item}

/-- The first character of an item. -/
theorem exists_digit (hwf : item.WellFormed) (hlist : s.list = item.text ++ rest) :
    ∃ c text, s.list = c :: text ∧ c.isDigit = true := by
  obtain ⟨c, tail, htext, hc⟩ := hwf.exists_text_eq_cons
  exact ⟨c, tail ++ rest, by rw [hlist, htext, List.cons_append], hc⟩

/-- The pass over an item to read, up to its separator. -/
theorem parsePass_reads (h : HasGeometry n b s.bl) (hread : Readable min max item)
    (hends : item.Ends rest) (hlist : s.list = item.text ++ rest) :
    ∃ t : ParseState, t.list = rest ∧ Adds n b (item.Denotes intValue ·) s.bl t.bl ∧
      parsePass min max s = if (parseSeparator t).2.isSome then some (.done (parseSeparator t))
        else some (.again (parseSeparator t).1) := by
  obtain ⟨hwf, hwithin, hend⟩ := hread
  obtain ⟨c, text, hcons, hc⟩ := exists_digit hwf hlist
  obtain ⟨t, hcall, ht, hadds⟩ := parseItem_reads h hwf hends hwithin hend hlist
  refine ⟨t, ht, hadds, ?_⟩
  rw [parsePass_digit hcons hc]
  exact bind_of_some hcall

/-- A comma and more text behind the item: the next pass takes over. -/
theorem parsePass_comma (h : HasGeometry n b s.bl) (hread : Readable min max item)
    (hlist : s.list = item.text ++ ',' :: rest) (hne : rest ≠ []) :
    ∃ t : ParseState, parsePass min max s = some (.again t) ∧ t.list = rest ∧
      Adds n b (item.Denotes intValue ·) s.bl t.bl := by
  obtain ⟨t, ht, hadds, hpass⟩ := parsePass_reads h hread (item.ends_comma rest) hlist
  obtain ⟨u, hsep, hu, hbl⟩ := parseSeparator_comma ht hne
  rw [hsep] at hpass
  exact ⟨u, hpass, hu, hbl ▸ hadds⟩

/-- The end of the text behind the item. -/
theorem parsePass_last (h : HasGeometry n b s.bl) (hread : Readable min max item)
    (hlist : s.list = item.text) :
    ∃ t : ParseState, parsePass min max s = some (.again t) ∧ t.list = [] ∧
      Adds n b (item.Denotes intValue ·) s.bl t.bl := by
  obtain ⟨t, ht, hadds, hpass⟩ :=
    parsePass_reads h hread item.ends_nil (by rw [hlist, List.append_nil])
  have hsep : parseSeparator t = (t, none) := by
    simp only [parseSeparator, ht]
  rw [hsep] at hpass
  exact ⟨t, hpass, ht, hadds⟩

/-- Something else behind the item. -/
theorem parsePass_separator (h : HasGeometry n b s.bl) (hread : Readable min max item)
    (hends : item.Ends rest) (hlist : s.list = item.text ++ rest) (hne : rest ≠ [])
    (hbad : rest.head? ≠ some ',' ∨ rest = [',']) :
    ∃ t error, parsePass min max s = some (.done (t, some error)) ∧
      Adds n b (item.Denotes intValue ·) s.bl t.bl := by
  obtain ⟨t, ht, hadds, hpass⟩ := parsePass_reads h hread hends hlist
  rw [← ht] at hne hbad
  obtain ⟨u, error, hsep, hbl⟩ := parseSeparator_error hne hbad
  rw [hsep] at hpass
  exact ⟨u, error, hpass, hbl ▸ hadds⟩

/-- An endless range. -/
theorem parsePass_endless (h : HasGeometry n b s.bl) (hwf : item.WellFormed)
    (hends : item.Ends rest) (hwithin : item.Within intValue min max) (hend : Endless item)
    (hlist : s.list = item.text ++ rest) : parsePass min max s = none := by
  obtain ⟨c, text, hcons, hc⟩ := exists_digit hwf hlist
  rw [parsePass_digit hcons hc, parseItem_endless h hwf hends hwithin hend hlist,
    Option.bind_none]

end Passes

/-! ### The loop -/

section Loop
variable {n b : Nat} {min max : Int} {s : ParseState} {items : List Item} {rest : List Char}

/-- The positions of a list of items. -/
def Denoted (items : List Item) (p : Int) : Prop := ∃ item ∈ items, item.Denotes intValue p

/-- The numbers of a list of items are those of the first item and of the others. -/
theorem denoted_cons (item : Item) (items : List Item) (p : Int) :
    Denoted (item :: items) p ↔ item.Denotes intValue p ∨ Denoted items p := by
  simp [Denoted]

/-- The numbers of a list with one more item at its end. -/
theorem denoted_concat (items : List Item) (last : Item) (p : Int) :
    Denoted (items ++ [last]) p ↔ Denoted items p ∨ last.Denotes intValue p := by
  simp [Denoted, or_and_right, exists_or]

/-- The passes over items with a comma behind each. -/
theorem loop_items (h : HasGeometry n b s.bl) (hread : ∀ item ∈ items, Readable min max item)
    (hlist : s.list = prefixText items ++ rest) (hne : rest ≠ []) (fuel : Nat) :
    ∃ t : ParseState, loop (parsePass min max) (fuel + items.length) s
        = loop (parsePass min max) fuel t ∧
      t.list = rest ∧ Adds n b (Denoted items) s.bl t.bl := by
  induction items generalizing s with
  | nil =>
      refine ⟨s, rfl, hlist, (Adds.refl h).congr ?_⟩
      intro p
      simp [Denoted]
  | cons item items ih =>
      rw [prefixText_cons] at hlist
      have hmore : prefixText items ++ rest ≠ [] := by simp [hne]
      obtain ⟨t, hpass, ht, hadds⟩ :=
        parsePass_comma h (hread item (by simp)) hlist hmore
      obtain ⟨u, hloop, hu, hadds'⟩ := ih hadds.geometry (fun i hi => hread i (by simp [hi])) ht
      refine ⟨u, ?_, hu, (hadds.trans hadds').congr fun p => (denoted_cons item items p).symm⟩
      rw [List.length_cons, ← Nat.add_assoc, loop_of_again hpass, hloop]

/-- A list of items is read to its end. -/
theorem loop_accepts (h : HasGeometry n b s.bl) (hread : ∀ item ∈ items, Readable min max item)
    (hlist : s.list = listText items) {fuel : Nat} (hfuel : s.list.length < fuel) :
    ∃ t : ParseState, loop (parsePass min max) fuel s = some (t, none) ∧
      Adds n b (Denoted items) s.bl t.bl := by
  have hdone : ∀ t : ParseState, t.list = [] →
      parsePass min max t = some (.done (t, none)) := by
    intro t ht
    simp only [parsePass, ht]
  rcases List.eq_nil_or_concat items with rfl | ⟨init, last, rfl⟩
  · obtain ⟨fuel, rfl⟩ := Nat.exists_eq_add_of_lt hfuel
    exact ⟨s, loop_of_done (hdone s hlist) _, (Adds.refl h).congr (by simp [Denoted])⟩
  · rw [List.concat_eq_append] at hlist hread ⊢
    rw [listText_concat] at hlist
    have hlast := hread last (by simp)
    obtain ⟨c, tail, htext, -⟩ := hlast.1.exists_text_eq_cons
    -- two passes are left for the last item and the end
    have hle := length_le_prefixText init
    have hlen : s.list.length = (prefixText init).length + (tail.length + 1) := by
      rw [hlist, htext, List.length_append, List.length_cons]
    obtain ⟨k, rfl⟩ : ∃ k, fuel = k + 2 + init.length := ⟨fuel - 2 - init.length, by omega⟩
    obtain ⟨t, hloop, ht, hadds⟩ := loop_items h (fun i hi => hread i (by simp [hi])) hlist
      (by rw [htext]; simp) (k + 2)
    obtain ⟨u, hpass, hu, hadds'⟩ := parsePass_last hadds.geometry hlast ht
    refine ⟨u, ?_, (hadds.trans hadds').congr fun p => (denoted_concat init last p).symm⟩
    rw [hloop, loop_of_again hpass, loop_of_done (hdone u hu)]

/-- The parser stops with an error behind the items that it read. -/
theorem loop_rejects (h : HasGeometry n b s.bl) (hread : ∀ item ∈ items, Readable min max item)
    (hstops : Stops (Readable min max) s.list items) (hend : ¬ReachesEndless min max s.list)
    {fuel : Nat} (hfuel : s.list.length < fuel) :
    ∃ t error, loop (parsePass min max) fuel s = some (t, some error) ∧
      Adds n b (Denoted items) s.bl t.bl := by
  -- The reader stops at an item, or at the character behind one.
  cases hstops with
  | item rest hlist hne hbad =>
      have hle := length_le_prefixText items
      have hlen : (prefixText items).length ≤ s.list.length := by
        rw [hlist, List.length_append]
        omega
      obtain ⟨k, rfl⟩ : ∃ k, fuel = k + 1 + items.length := ⟨fuel - 1 - items.length, by omega⟩
      obtain ⟨t, hloop, ht, hadds⟩ := loop_items h hread hlist hne (k + 1)
      have hbad' : ¬BeginsWith (fun item => item.WellFormed ∧ item.Within intValue min max)
          t.list := by
        rw [ht]
        intro hbegins
        obtain ⟨item, tail, ⟨hwf, hwithin⟩, hends, heq⟩ := hbegins
        by_cases hendless : Endless item
        · -- the parser would not have come out of this range
          exact hend ⟨items, item, tail, heq ▸ hlist, hread, hwf, hends, hwithin, hendless⟩
        · exact hbad ⟨item, tail, ⟨hwf, hwithin, hendless⟩, hends, heq⟩
      obtain ⟨u, error, hpass, hbl⟩ := parsePass_rejects (ht ▸ hne) hbad'
      exact ⟨u, error, by rw [hloop, loop_of_done hpass], hbl ▸ hadds⟩
  | separator init last rest hitems hlist hends hne hbad =>
      subst hitems
      have hlast := hread last (by simp)
      have hle := length_le_prefixText init
      have hlen : (prefixText init).length ≤ s.list.length := by
        rw [hlist, List.length_append]
        omega
      obtain ⟨k, rfl⟩ : ∃ k, fuel = k + 1 + init.length := ⟨fuel - 1 - init.length, by omega⟩
      obtain ⟨t, hloop, ht, hadds⟩ := loop_items h (fun i hi => hread i (by simp [hi])) hlist
        (by simp [hne]) (k + 1)
      obtain ⟨u, error, hpass, hadds'⟩ :=
        parsePass_separator hadds.geometry hlast hends ht hne hbad
      refine ⟨u, error, ?_, (hadds.trans hadds').congr fun p => (denoted_concat init last p).symm⟩
      rw [hloop, loop_of_done hpass]

/-- A text with an endless range gives no result, however much fuel the loop has beyond the text.
-/
theorem loop_endless (h : HasGeometry n b s.bl) (hend : ReachesEndless min max s.list)
    {fuel : Nat} (hfuel : s.list.length < fuel) : loop (parsePass min max) fuel s = none := by
  obtain ⟨items, item, rest, hlist, hread, hwf, hends, hwithin, hendless⟩ := hend
  obtain ⟨c, tail, htext, -⟩ := hwf.exists_text_eq_cons
  have hle := length_le_prefixText items
  have hlen : (prefixText items).length ≤ s.list.length := by
    rw [hlist, List.length_append]
    omega
  obtain ⟨k, rfl⟩ : ∃ k, fuel = k + items.length := ⟨fuel - items.length, by omega⟩
  obtain ⟨t, hloop, ht, hadds⟩ := loop_items h hread hlist (by simp [htext]) k
  rw [hloop]
  exact loop_of_none (parsePass_endless hadds.geometry hwf hends hwithin hendless ht) k

end Loop

/-! ### The call -/

/-- `min` and `max` of a call. -/
def minNumber (b : Nat) : Int := int32 b

/-- The largest number of a list, as the `int` that the parser computes. -/
def maxNumber (n b : Nat) : Int := int32 (minNumber b + n - 1)

section Call
variable {n b : Nat} {bl : BitlistT} {items : List Item} {text : List Char}

/-- The parser at the start of the text. -/
def startState (bl : BitlistT) (text : List Char) : ParseState where
  bl := bl
  list := text
  number := 0
  begin := 0
  charno := 1

/-- What the call makes of the end of the loop. -/
def callResult (malloc : Bool) (min max : Int) (r : ParseState × Option ParseError) :
    BitlistT × Bool × Option String :=
  match r.2 with
  | none => (r.1.bl, true, none)
  | some error =>
      (r.1.bl, false, if malloc then
        some (String.ofList ((errorMessage min max r.1 error).toList.take (errmsglen - 1)))
        else none)

/-- A call is the loop over the text and then the report of where it stopped. -/
theorem fromString_eq (h : HasGeometry n b bl) (malloc : Bool) (text : List Char) :
    bitlistFromString malloc bl text
      = (loop (parsePass (minNumber b) (maxNumber n b)) (text.length + 1)
          (startState bl text)).map (callResult malloc (minNumber b) (maxNumber n b)) := by
  simp only [bitlistFromString, h.baseBit, h.maxBits, minNumber, maxNumber,
    Option.bind_eq_bind, Option.map_eq_bind]
  congr 1
  funext r
  obtain ⟨t, error⟩ := r
  cases error with
  | none => rfl
  | some error => cases malloc <;> rfl

/-- A text that readable items make up is accepted, and their positions come to the list. -/
theorem fromString_accepts (h : HasGeometry n b bl) (malloc : Bool)
    (hread : ∀ item ∈ items, Readable (minNumber b) (maxNumber n b) item) :
    ∃ bl', bitlistFromString malloc bl (listText items) = some (bl', true, none) ∧
      Adds n b (Denoted items) bl bl' := by
  obtain ⟨t, hloop, hadds⟩ := @loop_accepts n b _ _ (startState bl (listText items)) items h hread
    rfl _ (Nat.lt_succ_self (listText items).length)
  refine ⟨t.bl, ?_, hadds⟩
  rw [fromString_eq h, hloop]
  rfl

/-- A text that stops the parser is rejected. The positions of the items before that place
come to the list all the same. -/
theorem fromString_rejects (h : HasGeometry n b bl) (malloc : Bool)
    (hread : ∀ item ∈ items, Readable (minNumber b) (maxNumber n b) item)
    (hstops : Stops (Readable (minNumber b) (maxNumber n b)) text items)
    (hend : ¬ReachesEndless (minNumber b) (maxNumber n b) text) :
    ∃ bl' errmsg, bitlistFromString malloc bl text = some (bl', false, errmsg) ∧
      Adds n b (Denoted items) bl bl' := by
  obtain ⟨t, error, hloop, hadds⟩ := @loop_rejects n b _ _ (startState bl text) items h hread
    hstops hend _ (Nat.lt_succ_self text.length)
  refine ⟨t.bl, (callResult malloc (minNumber b) (maxNumber n b) (t, some error)).2.2, ?_, hadds⟩
  rw [fromString_eq h, hloop]
  rfl

/-- A text with an endless range keeps the parser for ever. -/
theorem fromString_hangs (h : HasGeometry n b bl) (malloc : Bool)
    (hend : ReachesEndless (minNumber b) (maxNumber n b) text) :
    bitlistFromString malloc bl text = none := by
  have hloop := @loop_endless n b _ _ (startState bl text) h hend _ (Nat.lt_succ_self text.length)
  rw [fromString_eq h, hloop, Option.map_none]

end Call

end MyTestFiles.Proofs.Bitlist
