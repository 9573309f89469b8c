import MyTestFiles.Lib.Run
import MyTestFiles.Netlink.LlMap
import MyTestFiles.Proofs.Netlink.RoundTrip
import MyTestFiles.Proofs.Netlink.Demux

/-!
# `MyTestFiles.Proofs.Netlink.LlMap`: the interfaces as the kernel told them

What is known of an interface is what the kernel has said about it last.

* `IsLink n im` says that the message `n` tells about an interface, with `im` as its record.
* `remembered` are the messages about one interface that are remembered. An interface that is
  known already is told about without new memory. A new one is passed over as long as `malloc`
  has none.
* `llInitMap_links`: after `ll_init_map`, every interface has the name, the type and the flags of
  the last message about it that was remembered.
* `Answers` is what `ll_name_to_index` may say: an interface that has the name now, or what the
  kernel says where none has it. Where two interfaces have one name it may be either.
* `llNameToIndex_answers`: its answers are right, from the cache or not, in every run that does
  not fault and in which no message gives an interface another name. Where no two interfaces
  have one name (`UniqueNames`), the cache makes no difference to them.
-/

set_option autoImplicit false

namespace MyTestFiles.Proofs.Netlink

open MyTestFiles.Lib MyTestFiles.Netlink

/-! ### The request of a dump -/

/-- The number of a request is the one that the dump goes by. -/
theorem nlmsgSeq_dumpRequest (rth : RtnlHandle) (type : Nat) (req : Bytes) :
    nlmsgSeq (dumpRequest rth type req).2 0 = some (dumpRequest rth type req).1.dump := by
  have hheld : Holds (dumpRequest rth type req).2 8 (toLE 4 (uint32 (rth.seq + 1))) := by
    have hwhole : Holds (dumpRequest rth type req).2 0 (dumpRequest rth type req).2 :=
      List.prefix_rfl
    simp only [dumpRequest, holds_append_iff, List.length_append, length_toLE] at hwhole
    exact hwhole.1.1.2
  exact nlmsgSeq_of_holds hheld

/-- The answers to a dump are the messages from the kernel to this process that repeat the
number of the request. -/
theorem isDumpAnswer_dumpRequest (rth : RtnlHandle) (type : Nat) (req : Bytes) (who : SockaddrNl)
    (msg : Bytes) :
    isDumpAnswer (dumpRequest rth type req).1 who msg = some true ↔
      who.nlPid = 0 ∧ nlmsgPid msg 0 = some rth.localPid ∧ (nlmsgSeq msg 0).isSome ∧
        nlmsgSeq msg 0 = nlmsgSeq (dumpRequest rth type req).2 0 := by
  rw [nlmsgSeq_dumpRequest, isDumpAnswer]
  cases nlmsgPid msg 0 <;> cases nlmsgSeq msg 0 <;> simp [dumpRequest]

/-! ### The table -/

/-- A record that is remembered is found by its index, and the others are as they were. -/
theorem lookup_remember (t : Table) (im : Idxmap) (idx : Nat) :
    (t.remember im).lookup idx = if im.index = idx then some im else t.lookup idx := by
  by_cases hbucket : bucket idx = bucket im.index
  · rw [Table.lookup, Table.remember, hbucket, Function.update_self, find?_put, Table.lookup,
      hbucket]
  · have hne : im.index ≠ idx := fun h => hbucket (h ▸ rfl)
    rw [Table.lookup, Table.remember, Function.update_of_ne hbucket, if_neg hne]
    rfl

/-- The table after the messages about some interfaces, the first of them in the call number `k`
of `ll_remember_index`. An interface that is not known needs memory. -/
def rememberAll (malloc : Nat → Bool) : Table → Nat → List Idxmap → Table
  | t, _, [] => t
  | t, k, im :: links =>
      let t' := if (t.lookup im.index).isNone ∧ malloc k = false then t else t.remember im
      rememberAll malloc t' (k + 1) links

/-- The records of the interface `idx` that are remembered. All of them are where it is known,
and otherwise those from the first for which there is memory. -/
def remembered (malloc : Nat → Bool) (known : Bool) (idx k : Nat) (links : List Idxmap) :
    List Idxmap :=
  let told := (links.zipIdx k).filter fun x => x.1.index = idx
  (if known then told else told.dropWhile fun x => malloc x.2 = false).map Prod.fst

/-- The last record of an interface that is remembered is the one that is found. -/
theorem lookup_rememberAll (malloc : Nat → Bool) (links : List Idxmap) (t : Table) (k idx : Nat) :
    (rememberAll malloc t k links).lookup idx =
      ((remembered malloc (t.lookup idx).isSome idx k links).getLast?).or (t.lookup idx) := by
  induction links generalizing t k with
  | nil => cases (t.lookup idx).isSome <;> rfl
  | cons im links ih =>
      rw [rememberAll, ih]
      -- A message about another interface changes nothing for this one.
      by_cases hidx : im.index = idx
      · subst hidx
        by_cases hlost : (t.lookup im.index).isNone ∧ malloc k = false
        · -- there is no memory for the interface, and it stays unknown
          have hnone : t.lookup im.index = none := by simpa using hlost.1
          rw [if_pos hlost]
          simp [remembered, hnone, hlost.2]
        · have hfound : (t.remember im).lookup im.index = some im := by
            rw [lookup_remember, if_pos rfl]
          rw [if_neg hlost, hfound]
          have hall : remembered malloc (t.lookup im.index).isSome im.index k (im :: links) =
              im :: remembered malloc true im.index (k + 1) links := by
            cases hknown : t.lookup im.index with
            | some old => simp [remembered]
            | none =>
                have hmalloc : malloc k = true := by simpa [hknown] using hlost
                simp [remembered, hmalloc]
          rw [hall, List.getLast?_cons, Option.isSome_some]
          cases (remembered malloc true im.index (k + 1) links).getLast? <;> rfl
      · have hsame : (if (t.lookup im.index).isNone ∧ malloc k = false then t
            else t.remember im).lookup idx = t.lookup idx := by
          split
          · rfl
          · rw [lookup_remember, if_neg hidx]
        rw [hsame]
        simp [remembered, hidx]

/-! ### A message about an interface -/

/-- A string is read up to its zero. -/
theorem cString_of_holds {buf s rest : Bytes} {p : Nat} (h : Holds buf p (s ++ 0 :: rest))
    (hs : 0 ∉ s) : cString buf p = some s := by
  obtain ⟨post, hpost⟩ := h
  have hall : ∀ b ∈ s, decide (b ≠ 0) = true := fun b hb => by
    simp only [decide_eq_true_eq]
    exact fun heq => hs (heq ▸ hb)
  rw [cString, ← hpost, List.append_assoc, if_pos (by simp), List.takeWhile_append_of_pos hall]
  simp

/-- The data of an attribute lies behind its header. -/
theorem holds_of_rtaData {buf data : Bytes} {rta : Nat} (h : rtaData buf rta = some data) :
    Holds buf (rta + rtaLength 0) data := by
  obtain ⟨len, -, h⟩ := Option.bind_eq_some_iff.mp h
  dsimp only at h
  split at h
  · cases h
    exact holds_take_drop _ _ _
  · cases h

/-- The message tells about an interface, whose name is in the last `IFLA_IFNAME`. -/
structure IsLink (n : Bytes) (im : Idxmap) : Prop where
  frame : IsFrame 16 4 n
  type : nlmsgType n 0 = some RTM_NEWLINK
  index : ifiIndex n = some im.index
  ifi : ifiType n = some im.type
  flags : ifiFlags n = some im.flags
  attrs : ∃ attrs rest, (∀ a ∈ attrs, Attr.Fits a) ∧
    Layout 4 n iflaRta (attrs.map Attr.bytes) n.length ∧
    lastData attrs IFLA_IFNAME = some (im.name ++ 0 :: rest)
  short : im.name.length < 16
  terminated : 0 ∉ im.name

/-- A message about an interface is remembered, unless there is no memory for a new one. -/
theorem llRememberIndex_of_isLink {iflaMax : Nat} (hmax : IFLA_IFNAME ≤ iflaMax) {n : Bytes}
    {im : Idxmap} (h : IsLink n im) (malloc : Bool) (t : Table) :
    llRememberIndex iflaMax malloc n t =
      some (if (t.lookup im.index).isNone ∧ malloc = false then t else t.remember im, 0, none) := by
  obtain ⟨attrs, rest, hfits, hlayout, hlast⟩ := h.attrs
  have hlong : ¬n.length < nlmsgLength 8 := by
    have hle : 32 ≤ n.length := hlayout.le
    simp only [nlmsgLength, nlmsgHdrlen]
    omega
  have hlen : nlmsgLen n 0 = some n.length := h.frame.length
  obtain ⟨tb, hparse, hpayload⟩ := parseRtattr_layout hlayout hfits iflaMax
  have hname := hpayload IFLA_IFNAME hmax
  rw [hlast, payload] at hname
  obtain ⟨entry, hentry, hname⟩ := Option.bind_eq_some_iff.mp hname
  obtain ⟨rta, rfl, hdata⟩ := Option.bind_eq_some_iff.mp hname
  have hstring : strcpy16 n (rta + rtaLength 0) = some im.name := by
    simp only [strcpy16, cString_of_holds (holds_of_rtaData hdata) h.terminated,
      Option.bind_eq_bind, Option.bind_some, if_pos h.short]
  simp only [llRememberIndex, h.type, hlen, hparse, hentry, h.index, h.ifi, h.flags, hstring,
    Option.bind_eq_bind, Option.bind_some, if_neg hlong, ne_eq, not_true_eq_false, if_false]
  split <;> rfl

/-! ### `ll_init_map` -/

section Init
variable {iflaMax : Nat} {malloc : Nat → Bool} {rth : RtnlHandle} {t : Table}

/-- The answers to the dump among some messages. -/
def dumpAnswers (rth : RtnlHandle) (msgs : List (SockaddrNl × Bytes)) : List Bytes :=
  (msgs.filter fun x => isDumpAnswer rth x.1 x.2 = some true).map Prod.snd

/-- A message about an interface does not end the dump. -/
theorem ending_of_isLink {n : Bytes} {im : Idxmap} (h : IsLink n im) : ending n = none := by
  have hdone : RTM_NEWLINK ≠ NLMSG_DONE := by decide
  have herror : RTM_NEWLINK ≠ NLMSG_ERROR := by decide
  rw [ending, h.type, if_neg (by simpa using hdone), if_neg (by simpa using herror)]

/-- What the messages of the dump make of the table, up to the one that ends it. Messages that
are no answers are passed over. -/
theorem deliver_links (hmax : IFLA_IFNAME ≤ iflaMax)
    {before later : List (SockaddrNl × Bytes)} {who : SockaddrNl} {last : Bytes}
    {links : List Idxmap} (hlinks : List.Forall₂ IsLink (dumpAnswers rth before) links)
    (hanswer : isDumpAnswer rth who last = some true) (hdone : nlmsgType last 0 = some NLMSG_DONE)
    (t : Table) (k : Nat) :
    (dumpReceiver rth (llFilter iflaMax malloc) none).deliver (some (t, k))
        (before ++ (who, last) :: later) =
      (some (rememberAll malloc t k links, k + links.length), .returned 0) := by
  induction before generalizing links t k with
  | nil =>
      cases hlinks
      have hend : ending last = some (.returned 0) := by rw [ending, if_pos hdone]
      simp only [List.nil_append, Receiver.deliver, Receiver.serve, dumpReceiver, if_pos hanswer,
        hend, Option.map_some, rememberAll, List.length_nil, Nat.add_zero]
  | cons x before ih =>
      by_cases hx : isDumpAnswer rth x.1 x.2 = some true
      · rw [dumpAnswers, List.filter_cons_of_pos (by simpa using hx), List.map_cons] at hlinks
        cases hlinks with
        | @cons _ im _ links hlink hlinks =>
            let t' := if (t.lookup im.index).isNone ∧ malloc k = false then t else t.remember im
            have hserve : (dumpReceiver rth (llFilter iflaMax malloc) none).serve (some (t, k)) x =
                .ok (some (t', k + 1)) := by
              simp only [Receiver.serve, dumpReceiver, if_pos hx, ending_of_isLink hlink,
                Option.map_none, llFilter, llRememberIndex_of_isLink hmax hlink]
              rfl
            rw [List.cons_append, Receiver.deliver, hserve]
            dsimp only
            rw [ih hlinks t' (k + 1), rememberAll, List.length_cons, Nat.add_assoc,
              Nat.add_comm 1]
      -- No answer: without a junk callback it is passed over.
      · rw [dumpAnswers, List.filter_cons_of_neg (by simpa using hx)] at hlinks
        have hserve : (dumpReceiver rth (llFilter iflaMax malloc) none).serve (some (t, k)) x =
            .ok (some (t, k)) := by
          simp only [Receiver.serve, dumpReceiver, if_neg hx, junkCallback, lt_self_iff_false,
            if_false]
        rw [List.cons_append, Receiver.deliver, hserve]
        exact ih hlinks t k

/-- What is known of an interface. -/
def Tells (t : Table) (idx : Nat) (im : Idxmap) : Prop :=
  llIdxN2a t idx = im.name ∧ llIndexToType t idx = im.type ∧ llIndexToFlags t idx = im.flags

/-- The functions that look an interface up by its index all find its record. -/
theorem tells_of_lookup {idx : Nat} {im : Idxmap} (hidx : idx ≠ 0) (h : t.lookup idx = some im) :
    Tells t idx im := by
  simp [Tells, llIdxN2a, llIndexToType, llIndexToFlags, hidx, h]

/-- A message about the interface 1, by the name `lo`. -/
def loMessage : Bytes :=
  [40, 0, 0, 0, 16, 0, 2, 0, 1, 0, 0, 0, 9, 0, 0, 0] ++
  [0, 0, 4, 3, 1, 0, 0, 0, 9, 0, 0, 0, 0, 0, 0, 0] ++ [7, 0, 3, 0, 108, 111, 0, 0]

/-- The message of the example is one about an interface. -/
theorem isLink_loMessage : IsLink loMessage ⟨1, 772, 9, [108, 111]⟩ where
  frame := ⟨by decide, by decide⟩
  type := rfl
  index := rfl
  ifi := rfl
  flags := rfl
  attrs := by
    have hfits : Attr.Fits ⟨3, [108, 111, 0]⟩ := ⟨by decide, by decide⟩
    have hheld : Attr.bytes ⟨3, [108, 111, 0]⟩ <+: loMessage.drop 32 := by decide
    exact ⟨[⟨3, [108, 111, 0]⟩], [], by simp [hfits], .cons hheld (.nil 40), rfl⟩
  short := by decide
  terminated := by decide

end Init

/-! ### Names -/

section Names
variable {t : Table} {im : Idxmap}

/-- Each record is in the chain of its index, which has no other for it. -/
structure Table.Sound (t : Table) : Prop where
  nodup : ∀ b, ((t b).map Idxmap.index).Nodup
  bucket : ∀ b, ∀ im ∈ t b, Netlink.bucket im.index = b

/-- The empty table is sound. -/
theorem Table.Sound.empty : Table.Sound Table.empty where
  nodup _ := List.nodup_nil
  bucket _ im h := by simp [Table.empty] at h

/-- A table stays sound when an interface is remembered. -/
theorem Table.Sound.remember (h : Table.Sound t) (im : Idxmap) : Table.Sound (t.remember im) where
  nodup b := by
    by_cases hb : b = Netlink.bucket im.index
    · rw [hb, Netlink.Table.remember, Function.update_self]
      exact nodup_put (h.nodup _)
    · rw [Netlink.Table.remember, Function.update_of_ne hb]
      exact h.nodup b
  bucket b x hx := by
    by_cases hb : b = Netlink.bucket im.index
    · rw [hb, Netlink.Table.remember, Function.update_self] at hx
      rcases mem_put hx with rfl | hx
      · exact hb.symm
      · rw [hb]
        exact h.bucket _ x hx
    · rw [Netlink.Table.remember, Function.update_of_ne hb] at hx
      exact h.bucket b x hx

/-- The records that a search for a name goes over are those found by their index. -/
theorem Table.Sound.mem_iff (h : Table.Sound t) :
    im ∈ (List.finRange 16).flatMap t ↔ t.lookup im.index = some im := by
  constructor
  · intro hmem
    obtain ⟨b, -, hb⟩ := List.mem_flatMap.mp hmem
    rw [Table.lookup, h.bucket b im hb]
    exact find?_of_mem (h.nodup b) hb
  · intro hfind
    exact List.mem_flatMap.mpr
      ⟨Netlink.bucket im.index, List.mem_finRange _, List.mem_of_find?_eq_some hfind⟩

/-- Whatever the message is, one record changes at most. -/
theorem llRememberIndex_cases {iflaMax : Nat} {malloc : Bool} {n : Bytes}
    {r : Table × Int × Option String} (h : llRememberIndex iflaMax malloc n t = some r) :
    r.1 = t ∨ ∃ im, r.1 = t.remember im := by
  -- The function returns early for another type, a short message, no name and no memory.
  obtain ⟨type, -, h⟩ := Option.bind_eq_some_iff.mp h
  split at h
  · cases h
    exact .inl rfl
  · obtain ⟨len, -, h⟩ := Option.bind_eq_some_iff.mp h
    split at h
    · cases h
      exact .inl rfl
    · obtain ⟨⟨tb, text⟩, -, h⟩ := Option.bind_eq_some_iff.mp h
      obtain ⟨entry, -, h⟩ := Option.bind_eq_some_iff.mp h
      cases entry with
      | none =>
          cases h
          exact .inl rfl
      | some rta =>
          obtain ⟨index, -, h⟩ := Option.bind_eq_some_iff.mp h
          split at h
          · cases h
            exact .inl rfl
          · obtain ⟨ifi, -, h⟩ := Option.bind_eq_some_iff.mp h
            obtain ⟨flags, -, h⟩ := Option.bind_eq_some_iff.mp h
            obtain ⟨name, -, h⟩ := Option.bind_eq_some_iff.mp h
            cases h
            exact .inr ⟨_, rfl⟩

/-- What `ll_name_to_index` may answer: an interface that has the name, or what the kernel says
where none has it. -/
def Answers (ifNametoindex : Bytes → Nat) (t : Table) (name : Bytes) (idx : Nat) : Prop :=
  (∃ im, t.lookup idx = some im ∧ im.name = name) ∨
    (idx = ifNametoindex name ∧ ∀ i im, t.lookup i = some im → im.name ≠ name)

/-- No two interfaces have one name. -/
def UniqueNames (t : Table) : Prop :=
  ∀ i j im im', t.lookup i = some im → t.lookup j = some im' → im.name = im'.name → i = j

/-- Where names are unique there is one answer. -/
theorem Answers.eq {ifNametoindex : Bytes → Nat} {name : Bytes} {i j : Nat}
    (hunique : UniqueNames t) (hi : Answers ifNametoindex t name i)
    (hj : Answers ifNametoindex t name j) : i = j := by
  rcases hi with ⟨im, him, hname⟩ | ⟨hi, hnone⟩
  · rcases hj with ⟨im', him', hname'⟩ | ⟨-, hnone⟩
    · exact hunique i j im im' him him' (hname.trans hname'.symm)
    · exact absurd hname (hnone i im him)
  · rcases hj with ⟨im', him', hname'⟩ | ⟨hj, -⟩
    · exact absurd hname' (hnone j im' him')
    · rw [hi, hj]

/-- The cache is up to date. -/
def Coherent (t : Table) (c : NameCache) : Prop :=
  c.icache ≠ 0 → ∃ im, t.lookup c.icache = some im ∧ im.name = c.ncache

/-- A record is found by its own index. -/
theorem index_of_lookup {idx : Nat} (h : t.lookup idx = some im) : im.index = idx := by
  simpa using List.find?_some h

/-- One lookup of a name, from the cache or from the table. -/
theorem llNameToIndex_spec (ifNametoindex : Bytes → Nat) (h : Table.Sound t) {c : NameCache}
    (hc : Coherent t c) (name : Bytes) :
    Answers ifNametoindex t name (llNameToIndex ifNametoindex t (some name) c).2 ∧
      Coherent t (llNameToIndex ifNametoindex t (some name) c).1 := by
  unfold llNameToIndex
  dsimp only
  split
  · next hcached =>
      obtain ⟨im, him, hname⟩ := hc hcached.1
      exact ⟨.inl ⟨im, him, hname.trans hcached.2.symm⟩, hc⟩
  · cases hfind : t.findName name with
    | none =>
        refine ⟨.inr ⟨rfl, fun i im him hname => ?_⟩, hc⟩
        have hmem := h.mem_iff.mpr (show t.lookup im.index = some im by rwa [index_of_lookup him])
        have hnone := List.find?_eq_none.mp hfind im hmem
        simp [hname] at hnone
    | some im =>
        have hlookup := h.mem_iff.mp (List.mem_of_find?_eq_some hfind)
        have hname : im.name = name := by simpa using List.find?_some hfind
        exact ⟨.inl ⟨im, hlookup, hname⟩, fun _ => ⟨im, hlookup, hname⟩⟩

/-- A call that leaves every interface its name. -/
def KeepsNames (iflaMax : Nat) (s : Table × NameCache) : LlOp → Prop
  | .rememberIndex malloc n => ∀ r, llRememberIndex iflaMax malloc n s.1 = some r →
      ∀ idx im im', s.1.lookup idx = some im → r.1.lookup idx = some im' → im'.name = im.name
  | .nameToIndex _ => True

/-- A message that keeps the names keeps the cache up to date. -/
theorem coherent_of_lookup {t' : Table} {c : NameCache} (hc : Coherent t c)
    (hcases : t' = t ∨ ∃ im, t' = t.remember im)
    (hkeeps : ∀ idx im im', t.lookup idx = some im → t'.lookup idx = some im' →
      im'.name = im.name) :
    Coherent t' c := by
  intro hcached
  obtain ⟨im, him, hname⟩ := hc hcached
  rcases hcases with rfl | ⟨link, rfl⟩
  · exact ⟨im, him, hname⟩
  · by_cases hidx : link.index = c.icache
    · have hlink : (t.remember link).lookup c.icache = some link := by
        rw [lookup_remember, if_pos hidx]
      exact ⟨link, hlink, (hkeeps _ im link him hlink).trans hname⟩
    · exact ⟨im, by rw [lookup_remember, if_neg hidx, him], hname⟩

/-- Each call keeps the chains sound and the cache up to date. -/
theorem llStep_coherent {iflaMax : Nat} {ifNametoindex : Bytes → Nat} {s s' : Table × NameCache}
    {op : LlOp} {o : Option Nat} (hs : Table.Sound s.1 ∧ Coherent s.1 s.2)
    (hkeeps : KeepsNames iflaMax s op) (hstep : llStep iflaMax ifNametoindex s op = some (s', o)) :
    Table.Sound s'.1 ∧ Coherent s'.1 s'.2 := by
  obtain ⟨hsound, hc⟩ := hs
  cases op with
  | rememberIndex malloc n =>
      obtain ⟨r, hr, heq⟩ := Option.bind_eq_some_iff.mp hstep
      cases heq
      have hcases := llRememberIndex_cases hr
      refine ⟨?_, coherent_of_lookup hc hcases (hkeeps r hr)⟩
      rcases hcases with heq | ⟨im, heq⟩
      · rw [heq]
        exact hsound
      · rw [heq]
        exact hsound.remember im
  | nameToIndex name =>
      cases hstep
      cases name with
      | none => exact ⟨hsound, hc⟩
      | some name => exact ⟨hsound, (llNameToIndex_spec ifNametoindex hsound hc name).2⟩

/-- In a run that does not fault, in which no message gives an interface another name: whatever
messages come and names are looked up, the answer for a name is an interface that has it then, or
the kernel's where none has it. Where no two interfaces have one name, the answer is the one
without the cache. -/
theorem llNameToIndex_answers {iflaMax : Nat} {ifNametoindex : Bytes → Nat} {ops : List LlOp}
    {s : Table × NameCache} {answers : List (Option Nat)}
    (hkeeps : RunMeets (llStep iflaMax ifNametoindex) (KeepsNames iflaMax)
      (Table.empty, NameCache.initial) ops)
    (hrun : run (llStep iflaMax ifNametoindex) (Table.empty, NameCache.initial) ops =
      some (s, answers)) (name : Bytes) :
    Answers ifNametoindex s.1 name (llNameToIndex ifNametoindex s.1 (some name) s.2).2 ∧
      (UniqueNames s.1 → (llNameToIndex ifNametoindex s.1 (some name) s.2).2 =
        (llNameToIndex ifNametoindex s.1 (some name) .initial).2) := by
  have hinitial (t : Table) : Coherent t NameCache.initial := fun h => absurd rfl h
  obtain ⟨hsound, hc⟩ := RunMeets.invariant (fun s => Table.Sound s.1 ∧ Coherent s.1 s.2)
    (fun _ _ _ _ hs hok hstep => llStep_coherent hs hok hstep)
    ⟨Table.Sound.empty, hinitial _⟩ hkeeps hrun
  have hanswer := (llNameToIndex_spec ifNametoindex hsound hc name).1
  refine ⟨hanswer, fun hunique => ?_⟩
  exact hanswer.eq hunique (llNameToIndex_spec ifNametoindex hsound (hinitial _) name).1

/-- The interface is told and then looked up twice. -/
theorem llNameToIndex_answers_lo : ∃ s answers,
    run (llStep 3 fun _ => 0) (Table.empty, .initial) [.rememberIndex true loMessage,
      .nameToIndex (some [108, 111])] = some (s, answers) ∧
      Answers (fun _ => 0) s.1 [108, 111]
        (llNameToIndex (fun _ => 0) s.1 (some [108, 111]) s.2).2 := by
  have hremember := llRememberIndex_of_isLink (by decide : IFLA_IFNAME ≤ 3) isLink_loMessage
    true Table.empty
  obtain ⟨s, answers, hrun⟩ : ∃ s answers, run (llStep 3 fun _ => 0) (Table.empty, .initial)
      [.rememberIndex true loMessage, .nameToIndex (some [108, 111])] = some (s, answers) := by
    simp [run, llStep, hremember]
  have hkeeps : RunMeets (llStep 3 fun _ => 0) (KeepsNames 3) (Table.empty, .initial)
      [.rememberIndex true loMessage, .nameToIndex (some [108, 111])] := by
    refine ⟨fun r _ idx im im' him => ?_, fun _ _ _ => ⟨trivial, fun _ _ _ => trivial⟩⟩
    simp [Table.lookup, Table.empty] at him
  exact ⟨s, answers, hrun, (llNameToIndex_answers hkeeps hrun [108, 111]).1⟩

end Names

end MyTestFiles.Proofs.Netlink
