import MyTestFiles.Netlink.Attributes

/-!
# `MyTestFiles.Proofs.Netlink.Parse`: `parse_rtattr` on any bytes

`Walk` gives the attributes that the bytes hold, however they are. `parseRtattr_spec`: the
parser stays within its bytes, and the table points at the last attribute of each type. Only
the message about a deficit can read past the bytes.

* The table has one entry for each type up to the largest that the caller asks for. An attribute
  of a larger type is passed over.
* The table points into the buffer, so the result is about places. What an attribute holds is read
  from its place.
* Bytes that are left over are reported as a deficit, with the length field of what would be the
  next attribute (`deficit_eq_none_iff`).
* `parseRtattr_eq` is the parser on bytes whose attributes are given. `parseRtattr_spec` adds that
  any bytes inside the buffer have some, and when the message about a deficit faults.
* `parse_rtattr_byindex` does not sort by type. It keeps the attributes in their order as long as
  there is room, and leaves out those with a larger type.
-/

set_option autoImplicit false

namespace MyTestFiles.Proofs.Netlink

open MyTestFiles.Lib MyTestFiles.Netlink

/-- The attributes in the `len` bytes at `rta`, and what is left behind them. -/
abbrev Attributes (buf : Bytes) (rta : Nat) (len : Int) (fs : List (Nat × Nat)) (q : Nat)
    (left : Int) : Prop := Walk 4 (rtaLen buf) rtaAlign rta len fs q left

variable {buf : Bytes} {rta q max type : Nat} {len left : Int} {fs : List (Nat × Nat)}

/-- Aligning makes a length no smaller. -/
theorem le_rtaAlign (n : Nat) : n ≤ rtaAlign n := le_alignUp (by decide) n

/-- Any bytes of the buffer hold some attributes. -/
theorem exists_attributes (rta : Nat) (hlen : rta + len ≤ buf.length) :
    ∃ fs q left, Attributes buf rta len fs q left :=
  exists_walk (by decide) le_rtaAlign rta len fun q hq hbound =>
    (isSome_loadLE_iff (by decide)).mpr (by omega)

/-- A loop over attributes whose visits do not fault. -/
theorem rtaLoop_eq {σ : Type} {visit : σ → Nat → Option (Except Empty σ)} {f : σ → Nat → σ}
    (h : Attributes buf rta len fs q left)
    (hvisit : ∀ s x, x ∈ fs → visit s x.1 = some (.ok (f s x.1)))
    (s : σ) : rtaLoop buf visit s rta len = some ((fs.map Prod.fst).foldl f s, q, left) := by
  have hfs := h.length_le (by decide) le_rtaAlign
  have hvisits : visits visit s fs = some (.ok ((fs.map Prod.fst).foldl f s)) := by
    clear h hfs
    induction fs generalizing s with
    | nil => rfl
    | cons x fs ih =>
        rw [visits, hvisit s x (by simp)]
        simpa using ih (fun s y hy => hvisit s y (by simp [hy])) (f s x.1)
  rw [rtaLoop, walk_eq visit h s (Nat.lt_succ_of_le hfs), hvisits]
  rfl

/-! ### The table -/

/-- The entry for a type after some attributes are entered, each under its own type. -/
theorem getElem?_foldl_set {τ : Type*} (kind : τ → Nat) (max type : Nat) (htype : type ≤ max)
    (xs : List τ) :
    (xs.foldl (fun tb x => if kind x ≤ max then tb.set (kind x) (some x) else tb)
      (List.replicate (max + 1) none))[type]? =
      some (xs.filter fun x => kind x = type).getLast? := by
  have hlength : ∀ ys : List τ,
      (ys.foldl (fun tb x => if kind x ≤ max then tb.set (kind x) (some x) else tb)
        (List.replicate (max + 1) (none : Option τ))).length = max + 1 := by
    intro ys
    induction ys using List.reverseRecOn with
    | nil => simp
    | append_singleton ys y ih =>
        rw [List.foldl_append, List.foldl_cons, List.foldl_nil]
        split
        · rw [List.length_set, ih]
        · exact ih
  -- The last attribute of the type is the one that the loop enters last.
  induction xs using List.reverseRecOn with
  | nil => simp [Nat.lt_succ_of_le htype]
  | append_singleton xs x ih =>
      rw [List.foldl_append, List.foldl_cons, List.foldl_nil, List.filter_append]
      by_cases hkind : kind x = type
      · have hlt : type < max + 1 := Nat.lt_succ_of_le htype
        rw [hkind, if_pos htype, List.getElem?_set_self (by rw [hlength]; exact hlt)]
        simp [hkind]
      · have hnil : [x].filter (fun x => kind x = type) = [] := by simp [hkind]
        rw [hnil, List.append_nil, ← ih]
        split
        · rw [List.getElem?_set_ne hkind]
        · rfl

/-- The table of `parse_rtattr`: the place of the last attribute of each type. -/
def lastOfType (buf : Bytes) (fs : List (Nat × Nat)) (type : Nat) : Option Nat :=
  ((fs.map Prod.fst).filter fun p => rtaType buf p = some type).getLast?

/-- No more than the padding of the last attribute can be missing. -/
theorem left_bounds (h : Attributes buf rta len fs q left) (hlen : -4 < len) : -4 < left := by
  induction h with
  | stop _ => exact hlen
  | @next p n q len left fs hok _ ih =>
      obtain ⟨-, -, hle⟩ := frameOk_eq_some_some hok
      have hlt : rtaAlign n < n + 4 := alignUp_lt (by decide) n
      exact ih (by omega)

/-- The message about a deficit reads past the buffer where fewer than two bytes are left over at
its end. -/
theorem deficit_eq_none_iff :
    deficit buf q left = none ↔ left ≠ 0 ∧ buf.length < q + 2 := by
  have hread : (loadLE 2 buf q).isSome ↔ q + 2 ≤ buf.length := isSome_loadLE_iff (by decide)
  unfold deficit
  by_cases hzero : left = 0
  · simp [hzero]
  · rw [if_neg hzero]
    cases hn : rtaLen buf q with
    | none =>
        have hlt : ¬q + 2 ≤ buf.length := by
          rw [← hread, show loadLE 2 buf q = rtaLen buf q from rfl, hn]
          simp
        simp [hzero]
        omega
    | some n =>
        have hle : q + 2 ≤ buf.length := by
          rw [← hread, show loadLE 2 buf q = rtaLen buf q from rfl, hn]
          rfl
        simp
        omega

/-- The parser, in terms of the attributes that the bytes hold. -/
theorem parseRtattr_eq (h : Attributes buf rta len fs q left)
    (htype : ∀ f ∈ fs, (rtaType buf f.1).isSome) (max : Nat) :
    ∃ tb, (∀ type ≤ max, tb[type]? = some (lastOfType buf fs type)) ∧
      parseRtattr buf max rta len = (deficit buf q left).map fun text => (tb, text) := by
  let kind : Nat → Nat := fun p => (rtaType buf p).getD 0
  let tb : List (Option Nat) := (fs.map Prod.fst).foldl
    (fun tb p => if kind p ≤ max then tb.set (kind p) (some p) else tb)
    (List.replicate (max + 1) none)
  have hloop : rtaLoop buf (parseVisit buf max) (List.replicate (max + 1) none) rta len =
      some (tb, q, left) :=
    rtaLoop_eq h (fun s f hf => by
      obtain ⟨t, ht⟩ := Option.isSome_iff_exists.mp (htype f hf)
      simp [parseVisit, kind, ht]) _
  refine ⟨tb, fun type hmax => ?_, ?_⟩
  -- Every type in reach is there, so the default of `kind` is never used.
  · rw [getElem?_foldl_set kind max type hmax, lastOfType]
    congr 2
    refine List.filter_congr fun p hp => ?_
    obtain ⟨f, hf, rfl⟩ := List.mem_map.mp hp
    obtain ⟨t, ht⟩ := Option.isSome_iff_exists.mp (htype f hf)
    simp [kind, ht]
  · simp only [parseRtattr, hloop, Option.bind_eq_bind, Option.bind_some]
    cases deficit buf q left <;> rfl

/-- Whatever the bytes are, the parser takes the attributes that they hold and nothing outside
of them, and the table points at the last attribute of each type up to `max`. Where bytes are
left over, or the padding of the last attribute is missing, the message about that reads two
bytes more, and that is the only read that may miss the buffer. -/
theorem parseRtattr_spec (buf : Bytes) (max rta : Nat) (len : Int) (hlen : rta + len ≤ buf.length) :
    ∃ fs q left tb, Attributes buf rta len fs q left ∧
      (∀ f ∈ fs, rtaLen buf f.1 = some f.2 ∧ 4 ≤ f.2 ∧ rta ≤ f.1 ∧ (f.1 + f.2 : Int) ≤ rta + len) ∧
      (∀ type ≤ max, tb[type]? = some (lastOfType buf fs type)) ∧
      (parseRtattr buf max rta len = (deficit buf q left).map fun text => (tb, text)) ∧
      (parseRtattr buf max rta len = none ↔ left ≠ 0 ∧ buf.length < q + 2) ∧
      (q : Int) + left = rta + len ∧ (-4 < len → -4 < left) := by
  obtain ⟨fs, q, left, hwalk⟩ := exists_attributes rta hlen
  have hbounds := fun f hf => hwalk.mem_bounds le_rtaAlign (f := f) hf
  -- the type of an attribute is within its header
  have htype : ∀ f ∈ fs, (rtaType buf f.1).isSome := fun f hf => by
    obtain ⟨-, hhdr, -, hbound⟩ := hbounds f hf
    exact (isSome_loadLE_iff (by decide)).mpr (by omega)
  obtain ⟨tb, htb, hparse⟩ := parseRtattr_eq hwalk htype max
  refine ⟨fs, q, left, tb, hwalk, hbounds, htb, hparse, ?_, hwalk.add_left, left_bounds hwalk⟩
  rw [hparse, Option.map_eq_none_iff, deficit_eq_none_iff]

/-- An attribute of five bytes at the end of the buffer: its padding is missing. -/
theorem parseRtattr_spec_five : ∃ fs q left, ∃ tb : List (Option Nat),
    Attributes [5, 0, 1, 0, 9] 0 5 fs q left ∧ tb[1]? = some (lastOfType [5, 0, 1, 0, 9] fs 1) ∧
    (parseRtattr [5, 0, 1, 0, 9] 1 0 5 = none ↔ left ≠ 0 ∧ 5 < q + 2) := by
  obtain ⟨fs, q, left, tb, hwalk, -, htb, -, hnone, -⟩ :=
    parseRtattr_spec [5, 0, 1, 0, 9] 1 0 5 (by decide)
  exact ⟨fs, q, left, tb, hwalk, htb 1 le_rfl, hnone⟩

/-! ### By index -/

/-- The entries that fit, in order. -/
theorem foldl_byindex {τ : Type*} (kind : τ → Nat) (max : Nat) (xs : List τ) :
    xs.foldl (fun (s : List (Option τ) × Nat) x =>
        if kind x ≤ max ∧ s.2 < max then (s.1.set s.2 (some x), s.2 + 1) else s)
      (List.replicate max none, 0) =
      let found := (xs.filter fun x => kind x ≤ max).take max
      (found.map some ++ List.replicate (max - found.length) none, found.length) := by
  -- The loop goes forwards, so the induction takes the last entry off.
  induction xs using List.reverseRecOn with
  | nil => simp
  | append_singleton xs x ih =>
      rw [List.foldl_append, ih, List.foldl_cons, List.foldl_nil, List.filter_append]
      dsimp only
      by_cases hkind : kind x ≤ max
      · have hone : [x].filter (fun x => kind x ≤ max) = [x] := by simp [hkind]
        rw [hone]
        generalize xs.filter (fun x => kind x ≤ max) = ys
        by_cases hroom : ys.length < max
        · -- there is room for one more
          have htake : ys.take max = ys := List.take_of_length_le hroom.le
          have htake' : (ys ++ [x]).take max = ys ++ [x] :=
            List.take_of_length_le (by simpa using hroom)
          obtain ⟨more, hmore⟩ : ∃ more, max - ys.length = more + 1 :=
            ⟨max - ys.length - 1, by omega⟩
          have hless : max - (ys.length + 1) = more := by omega
          rw [htake, htake', if_pos ⟨hkind, hroom⟩, hmore, List.replicate_succ]
          simp [List.set_append_right, hless]
        · have hlength : (ys.take max).length = max := by
            rw [List.length_take]
            omega
          rw [if_neg (by rw [hlength]; simp), List.take_append_of_le_length (by omega)]
      · have hnone : [x].filter (fun x => kind x ≤ max) = [] := by simp [hkind]
        rw [hnone, List.append_nil, if_neg fun h => hkind h.1]

/-- `parse_rtattr_byindex` keeps the first `max` attributes with a type up to `max`, in order. -/
theorem parseRtattrByindex_spec (buf : Bytes) (max rta : Nat) (hlen : rta + len ≤ buf.length) :
    ∃ fs q left, Attributes buf rta len fs q left ∧
      let found := ((fs.map Prod.fst).filter fun p => (rtaType buf p).getD 0 ≤ max).take max
      parseRtattrByindex buf max rta len = (deficit buf q left).map fun text =>
        (found.map some ++ List.replicate (max - found.length) none, found.length, text) := by
  obtain ⟨fs, q, left, hwalk⟩ := exists_attributes rta hlen
  let enter : List (Option Nat) × Nat → Nat → List (Option Nat) × Nat := fun s p =>
    if (rtaType buf p).getD 0 ≤ max ∧ s.2 < max then (s.1.set s.2 (some p), s.2 + 1) else s
  have hvisit : ∀ (s : List (Option Nat) × Nat) (f : Nat × Nat), f ∈ fs →
      byindexVisit buf max s f.1 = some (.ok (enter s f.1)) := fun s f hf => by
    obtain ⟨-, hhdr, -, hbound⟩ := hwalk.mem_bounds le_rtaAlign hf
    have hread : (rtaType buf f.1).isSome := (isSome_loadLE_iff (by decide)).mpr (by omega)
    obtain ⟨t, ht⟩ := Option.isSome_iff_exists.mp hread
    simp [byindexVisit, enter, ht]
  have hloop := rtaLoop_eq hwalk hvisit (List.replicate max none, 0)
  rw [show (fs.map Prod.fst).foldl enter (List.replicate max none, 0) = _ from
    foldl_byindex (fun p => (rtaType buf p).getD 0) max _] at hloop
  refine ⟨fs, q, left, hwalk, ?_⟩
  simp only [parseRtattrByindex, hloop, Option.bind_eq_bind, Option.bind_some]
  cases deficit buf q left <;> rfl

end MyTestFiles.Proofs.Netlink
