import MyTestFiles.Proofs.Netlink.Parse

/-!
# `MyTestFiles.Proofs.Netlink.RoundTrip`: what is added is parsed

`Built width buf base start attrs`: the message at `base` has the attributes `attrs` from
`start` to its end. An attribute that fits makes `Built` one attribute longer, and one that does
not leaves the buffer alone (`appendAttr_spec`). So any sequence of additions gives a message in
which the parser finds the attributes that were accepted (`parseRtattr_addAll`).

* The lengths of the message and of the attributes are fields of 32 and of 16 bits, and the
  additions wrap. The result is about messages whose lengths stay below `2 ^ 31`, and about
  attributes whose own length is in range (`Attr.Fits`).
* `fitting maxlen total attrs` are the attributes that are accepted: each in its turn, as long as
  the message with it is not longer than `maxlen`. Those that are not accepted leave the message
  as it was, and a smaller one behind them may be accepted again.

The buffer is arbitrary around the message, and the additions leave it alone there. What the
parser finds is compared attribute by attribute: its type, its length and its data.
-/

set_option autoImplicit false

namespace MyTestFiles.Proofs.Netlink

open MyTestFiles.Lib MyTestFiles.Netlink

/-- A type and the data. -/
structure Attr where
  type : Nat
  data : Bytes

/-- The bytes of an attribute, without the padding behind it. -/
def Attr.bytes (a : Attr) : Bytes := toLE 2 (rtaLength a.data.length) ++ toLE 2 a.type ++ a.data

/-- The type and the length fit their fields. -/
structure Attr.Fits (a : Attr) : Prop where
  type : a.type < 256 ^ 2
  length : rtaLength a.data.length < 256 ^ 2

variable {buf buf' : Bytes} {a : Attr} {attrs : List Attr} {width base start total p e : Nat}

/-- The bytes of an attribute are as many as its length field says. -/
theorem length_bytes (a : Attr) : a.bytes.length = rtaLength a.data.length := by
  simp only [Attr.bytes, List.length_append, length_toLE]
  rfl

/-- An attribute is a frame with a header of four bytes. -/
theorem isFrame_bytes (h : a.Fits) : IsFrame 4 2 a.bytes where
  header := by
    rw [length_bytes]
    exact Nat.le_add_right ..
  length := by
    rw [length_bytes, Attr.bytes, List.append_assoc, ofLE_toLE_append, Nat.mod_eq_of_lt h.length]

/-! ### Reading an attribute -/

/-- Where an attribute stands its length is read. -/
theorem rtaLen_of_holds (h : Holds buf p a.bytes) (ha : a.Fits) :
    rtaLen buf p = some (rtaLength a.data.length) := by
  have hlen := (isFrame_bytes ha).length
  rw [length_bytes] at hlen
  exact h.loadLE hlen

/-- Where an attribute stands its type is read. -/
theorem rtaType_of_holds (h : Holds buf p a.bytes) (ha : a.Fits) :
    rtaType buf p = some a.type := by
  rw [Attr.bytes, List.append_assoc, holds_append_iff, holds_append_iff, length_toLE] at h
  rw [rtaType, loadLE_of_holds_toLE h.2.1, Nat.mod_eq_of_lt ha.type]

/-- Where an attribute stands its data is read. -/
theorem rtaData_of_holds (h : Holds buf p a.bytes) (ha : a.Fits) :
    rtaData buf p = some a.data := by
  have hlen := rtaLen_of_holds h ha
  have hheader : (toLE 2 (rtaLength a.data.length) ++ toLE 2 a.type).length = rtaLength 0 := by
    rw [List.length_append, length_toLE, length_toLE]
    rfl
  rw [Attr.bytes, holds_append_iff, hheader] at h
  have hdata : Holds buf (p + rtaLength 0) a.data := h.2
  have hsize : rtaLength a.data.length - rtaLength 0 = a.data.length := by
    simp [rtaLength]
  simp only [rtaData, hlen, Option.bind_eq_bind, Option.bind_some, hsize, hdata.eq_take_drop,
    if_true]

/-! ### Adding an attribute -/

/-- The message at `base` has the attributes `attrs` from `start` to its end. -/
structure Built (width : Nat) (buf : Bytes) (base start : Nat) (attrs : List Attr) (total : Nat) :
    Prop where
  length : loadLE width buf base = some total
  layout : Layout 4 buf start (attrs.map Attr.bytes) (base + nlmsgAlign total)
  header : base + width ≤ start

/-- An aligned attribute behind an aligned message. -/
theorem nlmsgAlign_add (m n : Nat) :
    nlmsgAlign (nlmsgAlign m + rtaAlign n) = nlmsgAlign m + rtaAlign n :=
  alignUp_of_dvd (by decide) (Nat.dvd_add (dvd_alignUp 4 m) (dvd_alignUp 4 n))

/-- An attribute that fits within the bound is stored behind the others. Otherwise nothing is
stored. -/
theorem appendAttr_spec (h : Built width buf base start attrs total) (text : String)
    {size maxlen : Nat} (hsize : size = rtaAlign (rtaLength a.data.length))
    (hwrap : nlmsgAlign total + size < 4294967296) (hfit : base + maxlen ≤ buf.length)
    (hmax : maxlen < 256 ^ width) :
    (maxlen < nlmsgAlign total + size ∧
      appendAttr width size text buf base maxlen a.type a.data = some (.error text)) ∨
    ∃ buf', appendAttr width size text buf base maxlen a.type a.data = some (.ok buf') ∧
      buf'.length = buf.length ∧ nlmsgAlign total + size ≤ maxlen ∧
      Built width buf' base start (attrs ++ [a]) (nlmsgAlign total + size) := by
  -- neither the aligned length nor the sum wraps
  have htail : uint32 (nlmsgAlign total : Nat) = nlmsgAlign total :=
    uint32_natCast (lt_of_le_of_lt (Nat.le_add_right _ size) hwrap)
  have hnew : uint32 ((nlmsgAlign total : Nat) + (size : Nat) : Int) = nlmsgAlign total + size :=
    mod_cast uint32_natCast hwrap
  by_cases hroom : nlmsgAlign total + size > maxlen
  · exact .inl ⟨hroom, by simp [appendAttr, h.length, htail, hnew, hroom]⟩
  · right
    have hsize' : rtaLength a.data.length ≤ size := hsize ▸ le_rtaAlign _
    have hlen : rtaLength a.data.length = 4 + a.data.length := rfl
    have hdata : rtaLength 0 = 4 := rfl
    have hstart := h.layout.le
    have hheader := h.header
    -- the four stores: the header of the attribute, its data, and the length of the message
    obtain ⟨buf₁, h₁⟩ : ∃ buf₁,
        storeBytes buf (base + nlmsgAlign total + 2) (toLE 2 a.type) = some buf₁ :=
      ⟨_, storeBytes_of_le (by rw [length_toLE]; omega)⟩
    have hl₁ := length_of_storeBytes h₁
    obtain ⟨buf₂, h₂⟩ : ∃ buf₂, storeBytes buf₁ (base + nlmsgAlign total)
        (toLE 2 (rtaLength a.data.length)) = some buf₂ :=
      ⟨_, storeBytes_of_le (by rw [length_toLE]; omega)⟩
    have hl₂ := length_of_storeBytes h₂
    obtain ⟨buf₃, h₃⟩ : ∃ buf₃,
        storeBytes buf₂ (base + nlmsgAlign total + rtaLength 0) a.data = some buf₃ :=
      ⟨_, storeBytes_of_le (by omega)⟩
    have hl₃ := length_of_storeBytes h₃
    obtain ⟨buf₄, h₄⟩ : ∃ buf₄,
        storeBytes buf₃ base (toLE width (nlmsgAlign total + size)) = some buf₄ :=
      ⟨_, storeBytes_of_le (by rw [length_toLE]; omega)⟩
    have hl₄ := length_of_storeBytes h₄
    have hkeep : ∀ q f, start ≤ q → q + f.length ≤ base + nlmsgAlign total → Holds buf q f →
        Holds buf₄ q f := fun q f hq hbound hheld => by
      refine (((hheld.store h₁ ?_).store h₂ ?_).store h₃ ?_).store h₄ ?_
      · exact .inl (by omega)
      · exact .inl (by omega)
      · exact .inl (by omega)
      · exact .inr (by rw [length_toLE]; omega)
    have hattr : Holds buf₄ (base + nlmsgAlign total) a.bytes := by
      rw [Attr.bytes, List.append_assoc, holds_append_iff, holds_append_iff, length_toLE,
        length_toLE]
      refine ⟨((Holds.of_store h₂).store h₃ ?_).store h₄ ?_,
        (((Holds.of_store h₁).store h₂ ?_).store h₃ ?_).store h₄ ?_,
        (Holds.of_store h₃).store h₄ ?_⟩
      all_goals simp only [length_toLE]; omega
    refine ⟨buf₄, ?_, by rw [hl₄, hl₃, hl₂, hl₁], by omega, ?_, ?_, h.header⟩
    · simp [appendAttr, h.length, htail, hnew, hroom, h₁, h₂, h₃, h₄]
    · rw [loadLE_of_holds_toLE (Holds.of_store h₄), Nat.mod_eq_of_lt (by omega)]
    · have hlayout := (h.layout.congr (by decide) hkeep).concat hattr
      rw [hsize, nlmsgAlign_add, List.map_append, List.map_singleton, ← Nat.add_assoc]
      rw [length_bytes] at hlayout
      exact hlayout

/-! ### Parsing what was added -/

/-- The data of the attribute that the table has for a type. -/
def payload (buf : Bytes) (tb : List (Option Nat)) (type : Nat) : Option Bytes := do
  let rta ← (← tb[type]?)
  rtaData buf rta

/-- The data of the last attribute of a type. -/
def lastData (attrs : List Attr) (type : Nat) : Option Bytes :=
  ((attrs.filter fun a => a.type = type).getLast?).map Attr.data

/-- The attributes at their places, from their frames. -/
theorem exists_placed (p : Nat) (attrs : List Attr) :
    ∃ placements : List (Nat × Attr), placements.map Prod.snd = attrs ∧
      placed 4 p (attrs.map Attr.bytes) = placements.map fun x => (x.1, x.2.bytes) := by
  induction attrs generalizing p with
  | nil => exact ⟨[], rfl, rfl⟩
  | cons a attrs ih =>
      obtain ⟨placements, hsnd, hplaced⟩ := ih (p + alignUp 4 a.bytes.length)
      exact ⟨(p, a) :: placements, by rw [List.map_cons, hsnd], by
        rw [List.map_cons, placed, hplaced, List.map_cons]⟩

/-- In a stretch that the attributes fill, the parser finds the last attribute of each type and
nothing left over. -/
theorem parseRtattr_layout (h : Layout 4 buf start (attrs.map Attr.bytes) e)
    (hfits : ∀ a ∈ attrs, a.Fits) (max : Nat) :
    ∃ tb, parseRtattr buf max start (e - start) = some (tb, none) ∧
      ∀ type ≤ max, payload buf tb type = lastData attrs type := by
  -- the table points at addresses, so the attributes are taken with theirs
  obtain ⟨placements, hattrs, hplaced⟩ := exists_placed start attrs
  have hheld : ∀ x ∈ placements, Holds buf x.1 x.2.bytes ∧ x.2.Fits := fun x hx => by
    have hmem : (x.1, x.2.bytes) ∈ placed 4 start (attrs.map Attr.bytes) := by
      rw [hplaced]
      exact List.mem_map_of_mem hx
    exact ⟨h.holds_of_mem hmem, hfits _ (hattrs ▸ List.mem_map_of_mem hx)⟩
  have hframe : ∀ f ∈ attrs.map Attr.bytes, IsFrame 4 2 f := fun f hf => by
    obtain ⟨a, ha, rfl⟩ := List.mem_map.mp hf
    exact isFrame_bytes (hfits a ha)
  have hwalk := h.walk (by decide) (by decide) hframe
  rw [hplaced, List.map_map] at hwalk
  obtain ⟨tb, htb, hparse⟩ := parseRtattr_eq hwalk (fun f hf => by
    obtain ⟨x, hx, rfl⟩ := List.mem_map.mp hf
    obtain ⟨hx, hxfits⟩ := hheld x hx
    exact Option.isSome_of_eq_some (rtaType_of_holds hx hxfits)) max
  refine ⟨tb, by rw [hparse]; rfl, fun type hmax => ?_⟩
  have hfilter : lastOfType buf (placements.map ((fun f : Nat × Bytes => (f.1, f.2.length)) ∘
      fun x => (x.1, x.2.bytes))) type =
      ((placements.filter fun x => x.2.type = type).getLast?).map Prod.fst := by
    have htypes : (placements.filter fun x => rtaType buf x.1 = some type) =
        placements.filter fun x => x.2.type = type := List.filter_congr fun x hx => by
      obtain ⟨hx, hxfits⟩ := hheld x hx
      simp [rtaType_of_holds hx hxfits]
    rw [lastOfType, List.map_map, List.filter_map, List.getLast?_map, ← htypes]
    rfl
  have hlast : lastData attrs type =
      ((placements.filter fun x => x.2.type = type).getLast?).map fun x => x.2.data := by
    rw [lastData, ← hattrs, List.filter_map, List.getLast?_map, Option.map_map]
    rfl
  rw [payload, htb type hmax, hfilter, hlast]
  cases hx : (placements.filter fun x => x.2.type = type).getLast? with
  | none => rfl
  | some x =>
      have hmem := List.mem_of_mem_filter (List.mem_of_getLast? hx)
      obtain ⟨hheldx, hxfits⟩ := hheld x hmem
      exact rtaData_of_holds hheldx hxfits

/-! ### Any sequence of additions -/

/-- A call of one of the functions that add an attribute. -/
inductive Call where
  | u32 (type value : Nat)
  | bytes (type : Nat) (data : Bytes)

/-- The attribute that a call adds. -/
def Call.attr : Call → Attr
  | .u32 type value => ⟨type, toLE 4 value⟩
  | .bytes type data => ⟨type, data⟩

/-- To a message. -/
def addToMessage (n maxlen : Nat) (buf : Bytes) : Call → Option (Except String Bytes)
  | .u32 type value => addattr32 buf n maxlen type value
  | .bytes type data => addattrL buf n maxlen type data

/-- To an attribute. -/
def addToAttr (rta maxlen : Nat) (buf : Bytes) : Call → Option (Except String Bytes)
  | .u32 type value => rtaAddattr32 buf rta maxlen type value
  | .bytes type data => rtaAddattrL buf rta maxlen type data

/-- The calls one after the other, with the attributes that were accepted. -/
def addAll (add : Bytes → Call → Option (Except String Bytes)) :
    Bytes → List Call → Option (Bytes × List Attr)
  | buf, [] => some (buf, [])
  | buf, c :: calls => do
      match ← add buf c with
      | .error _ => addAll add buf calls
      | .ok buf =>
          let (buf, accepted) ← addAll add buf calls
          some (buf, c.attr :: accepted)

/-- The two families add attributes in the same way. -/
theorem addToMessage_eq (n maxlen : Nat) (buf : Bytes) (c : Call) :
    ∃ text, addToMessage n maxlen buf c = appendAttr 4
      (rtaAlign (rtaLength c.attr.data.length)) text buf n maxlen c.attr.type c.attr.data := by
  cases c with
  | u32 type value => exact ⟨_, by rw [Call.attr, length_toLE]; rfl⟩
  | bytes type data => exact ⟨_, rfl⟩

/-- Both calls that add to an attribute are one addition with a length field of 16 bits. -/
theorem addToAttr_eq (rta maxlen : Nat) (buf : Bytes) (c : Call) :
    ∃ text, addToAttr rta maxlen buf c = appendAttr 2
      (rtaAlign (rtaLength c.attr.data.length)) text buf rta maxlen c.attr.type c.attr.data := by
  cases c with
  | u32 type value => exact ⟨_, by rw [Call.attr, length_toLE]; rfl⟩
  | bytes type data => exact ⟨_, rfl⟩

/-- The attributes that fit one after the other behind a message of `total` bytes. -/
def fitting (maxlen : Nat) : Nat → List Attr → List Attr
  | _, [] => []
  | total, a :: attrs =>
      let size := rtaAlign (rtaLength a.data.length)
      if nlmsgAlign total + size ≤ maxlen then
        a :: fitting maxlen (nlmsgAlign total + size) attrs
      else fitting maxlen total attrs

/-- The accepted attributes are some of the attributes, in their order. -/
theorem fitting_sublist (maxlen total : Nat) (attrs : List Attr) :
    (fitting maxlen total attrs).Sublist attrs := by
  induction attrs generalizing total with
  | nil => exact .slnil
  | cons a attrs ih =>
      rw [fitting]
      split
      · exact (ih _).cons_cons _
      · exact (ih _).cons _

/-- What attributes take. -/
def attrsSize (attrs : List Attr) : Nat :=
  (attrs.map fun a => rtaAlign (rtaLength a.data.length)).sum

/-- Attributes whose lengths fit their fields are small, so the sums of `appendAttr` do not wrap
below `2 ^ 31`. -/
theorem no_wrap (ha : a.Fits) (htotal : total < 2147483648) :
    nlmsgAlign total + rtaAlign (rtaLength a.data.length) < 4294967296 := by
  have hlength := ha.length
  have htail : nlmsgAlign total < total + 4 := alignUp_lt (by decide) _
  have hsize : rtaAlign (rtaLength a.data.length) < rtaLength a.data.length + 4 :=
    alignUp_lt (by decide) _
  omega

/-- A run of additions to a message or an attribute that is built up already. -/
theorem addAll_spec {add : Bytes → Call → Option (Except String Bytes)} {maxlen : Nat}
    (hadd : ∀ buf c, ∃ text, add buf c = appendAttr width
      (rtaAlign (rtaLength c.attr.data.length)) text buf base maxlen c.attr.type c.attr.data)
    (h : Built width buf base start attrs total) {calls : List Call}
    (hcalls : ∀ c ∈ calls, c.attr.Fits) (hsmall : total < 2147483648)
    (hfit : base + maxlen ≤ buf.length) (hmax : maxlen < 256 ^ width)
    (hbound : maxlen < 2147483648) :
    ∃ buf' accepted total', addAll add buf calls = some (buf', accepted) ∧
      accepted = fitting maxlen total (calls.map Call.attr) ∧
      Built width buf' base start (attrs ++ accepted) total' ∧ buf'.length = buf.length ∧
      (accepted = [] ∧ total' = total ∨
        nlmsgAlign total' = total' ∧ total' = nlmsgAlign total + attrsSize accepted ∧
          total' ≤ maxlen) := by
  induction calls generalizing buf attrs total with
  | nil => exact ⟨buf, [], total, rfl, rfl, by simpa using h, rfl, .inl ⟨rfl, rfl⟩⟩
  | cons c calls ih =>
      obtain ⟨text, htext⟩ := hadd buf c
      have hrest : ∀ c ∈ calls, c.attr.Fits := fun c hc => hcalls c (by simp [hc])
      have hwrap := no_wrap (hcalls c (by simp)) hsmall
      rcases appendAttr_spec (a := c.attr) h text rfl hwrap hfit hmax with
        ⟨hroom, hrefused⟩ | ⟨buf₁, hok, hlength, hle, h₁⟩
      · -- refused: the buffer is as it was
        obtain ⟨buf', accepted, total', hall, hfitting, h'⟩ := ih h hrest hsmall hfit
        refine ⟨buf', accepted, total', ?_, ?_, h'⟩
        · rw [addAll, htext, hrefused]
          exact hall
        · rw [List.map_cons, fitting, if_neg (not_le.mpr hroom)]
          exact hfitting
      -- Accepted: the rest is added behind it, at an aligned length.
      · obtain ⟨buf', accepted, total', hall, hfitting, h', hlength', hsize⟩ :=
          ih h₁ hrest (lt_of_le_of_lt hle hbound) (by rw [hlength]; exact hfit)
        refine ⟨buf', c.attr :: accepted, total', ?_, ?_, ?_, by rw [hlength', hlength], .inr ?_⟩
        · rw [addAll, htext, hok]
          simp [hall]
        · rw [List.map_cons, fitting, if_pos hle, hfitting]
        · simpa using h'
        · have halign := nlmsgAlign_add total (rtaLength c.attr.data.length)
          rcases hsize with ⟨rfl, rfl⟩ | ⟨haligned, htotal, hbound⟩
          · exact ⟨halign, by simp [attrsSize], hle⟩
          · refine ⟨haligned, ?_, hbound⟩
            rw [htotal, halign]
            simp [attrsSize, Nat.add_assoc]

/-- Attributes added to a message, in any order and by either function, are what the parser
finds in it: for each type the data of the last that was accepted. Those are accepted for which
there is room when they come, and the others leave the message as it was. The length of the
message and the bound are below `2 ^ 31`, and the type and the length of each attribute fit their
fields of 16 bits. -/
theorem parseRtattr_addAll {buf : Bytes} {n maxlen total : Nat} {calls : List Call}
    (htotal : loadLE 4 buf n = some total) (hheader : 4 ≤ nlmsgAlign total)
    (hsmall : total < 2147483648) (hbound : maxlen < 2147483648)
    (hfit : n + maxlen ≤ buf.length) (hcalls : ∀ c ∈ calls, c.attr.Fits) (max : Nat) :
    ∃ buf' accepted total', addAll (addToMessage n maxlen) buf calls = some (buf', accepted) ∧
      accepted = fitting maxlen total (calls.map Call.attr) ∧ loadLE 4 buf' n = some total' ∧
      (accepted ≠ [] → total' = nlmsgAlign total + attrsSize accepted ∧ total' ≤ maxlen) ∧
      (accepted ≠ [] ∨ 4 ∣ total → ∃ tb,
        parseRtattr buf' max (n + nlmsgAlign total) (total' - nlmsgAlign total) = some (tb, none) ∧
          ∀ type ≤ max, payload buf' tb type = lastData accepted type) := by
  have hbuilt : Built 4 buf n (n + nlmsgAlign total) [] total :=
    ⟨htotal, .nil _, by omega⟩
  obtain ⟨buf', accepted, total', hall, hfitting, h', -, hsize⟩ :=
    addAll_spec (addToMessage_eq n maxlen) hbuilt hcalls hsmall hfit
      (hbound.trans (by decide)) hbound
  have hsub : accepted.Sublist (calls.map Call.attr) := hfitting ▸ fitting_sublist ..
  refine ⟨buf', accepted, total', hall, hfitting, h'.length, fun hne => ?_, fun hne => ?_⟩
  · rcases hsize with ⟨hnil, -⟩ | ⟨-, hlen, hle⟩
    · exact absurd hnil hne
    · exact ⟨hlen, hle⟩
  -- The parser starts at the old length, rounded up, and gets what the message has grown by.
  · have haligned : nlmsgAlign total' = total' := by
      rcases hsize with ⟨hnil, rfl⟩ | ⟨haligned, -⟩
      · exact alignUp_of_dvd (by decide) (hne.resolve_left fun h => h hnil)
      · exact haligned
    have hfits : ∀ a ∈ accepted, a.Fits := fun a ha => by
      obtain ⟨c, hc, rfl⟩ := List.mem_map.mp (hsub.subset ha)
      exact hcalls c hc
    have hlayout := h'.layout
    rw [List.nil_append, haligned] at hlayout
    obtain ⟨tb, hparse, hpayload⟩ := parseRtattr_layout hlayout hfits max
    have hlen : ((n + total' : Nat) : Int) - (n + nlmsgAlign total : Nat) =
        total' - nlmsgAlign total := by
      push_cast
      omega
    rw [hlen] at hparse
    exact ⟨tb, hparse, hpayload⟩

/-- A route message with a destination, an interface, another destination that takes the place of
the first, and a gateway for which there is no room. -/
theorem parseRtattr_addAll_route : ∃ buf' accepted total',
    addAll (addToMessage 0 52) (28 :: List.replicate 63 0)
      [.bytes 1 [10, 0, 0, 1], .u32 4 7, .bytes 1 [10, 0, 0, 2], .bytes 5 [10, 0, 0, 3]] =
        some (buf', accepted) ∧ loadLE 4 buf' 0 = some total' ∧
      (accepted ≠ [] ∨ 4 ∣ 28 → ∃ tb, parseRtattr buf' 5 28 (total' - 28) = some (tb, none) ∧
        ∀ type ≤ 5, payload buf' tb type = lastData accepted type) := by
  obtain ⟨buf', accepted, total', hall, -, htotal, -, hparse⟩ :=
    @parseRtattr_addAll (28 :: List.replicate 63 0) 0 52 28
      [.bytes 1 [10, 0, 0, 1], .u32 4 7, .bytes 1 [10, 0, 0, 2], .bytes 5 [10, 0, 0, 3]]
      (by decide) (by decide) (by decide) (by decide) (by decide) (fun c hc => by
        simp only [List.mem_cons, List.not_mem_nil, or_false] at hc
        rcases hc with rfl | rfl | rfl | rfl <;> constructor <;> decide) 5
  exact ⟨buf', accepted, total', hall, htotal, hparse⟩

/-- The attributes added to an attribute are what `parse_rtattr_nested` finds in it. -/
theorem parseRtattrNested_addAll {buf : Bytes} {rta maxlen : Nat} {calls : List Call}
    (hempty : rtaLen buf rta = some (rtaLength 0)) (hfit : rta + maxlen ≤ buf.length)
    (hmax : maxlen < 256 ^ 2) (hcalls : ∀ c ∈ calls, c.attr.Fits) (max : Nat) :
    ∃ buf' accepted tb, addAll (addToAttr rta maxlen) buf calls = some (buf', accepted) ∧
      accepted = fitting maxlen 4 (calls.map Call.attr) ∧
      parseRtattrNested buf' max rta = some (tb, none) ∧
      ∀ type ≤ max, payload buf' tb type = lastData accepted type := by
  have hbuilt : Built 2 buf rta (rta + 4) [] 4 := ⟨hempty, .nil _, by omega⟩
  obtain ⟨buf', accepted, total, hall, hfitting, h', -, hsize⟩ :=
    addAll_spec (addToAttr_eq rta maxlen) hbuilt hcalls (by decide) hfit hmax
      (hmax.trans (by decide))
  have hsub : accepted.Sublist (calls.map Call.attr) := hfitting ▸ fitting_sublist ..
  -- An attribute that nothing was added to has four bytes, which is aligned as well.
  have haligned : nlmsgAlign total = total := by
    rcases hsize with ⟨-, rfl⟩ | ⟨haligned, -⟩
    · rfl
    · exact haligned
  have hlayout := h'.layout
  rw [List.nil_append, haligned] at hlayout
  obtain ⟨tb, hparse, hpayload⟩ := parseRtattr_layout hlayout (fun a ha => by
    obtain ⟨c, hc, rfl⟩ := List.mem_map.mp (hsub.subset ha)
    exact hcalls c hc) max
  refine ⟨buf', accepted, tb, hall, hfitting, ?_, hpayload⟩
  have hlen : ((rta + total : Nat) : Int) - (rta + 4 : Nat) = total - (rtaLength 0 : Nat) := by
    rw [show rtaLength 0 = 4 from rfl]
    push_cast
    omega
  rw [hlen] at hparse
  rw [parseRtattrNested, show rtaLen buf' rta = some total from h'.length]
  exact hparse

end MyTestFiles.Proofs.Netlink
