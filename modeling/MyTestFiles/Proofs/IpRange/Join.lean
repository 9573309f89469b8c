import MyTestFiles.Lib.Runs
import MyTestFiles.Proofs.IpRange.Split

/-!
# `MyTestFiles.Proofs.IpRange.Join`: the ranges of a list of blocks

`compar_netaddr` sorts a block behind those that contain it, so each block that is still to
come is inside the current range or behind it (`Ahead`). Then a pass of the loop either skips
the block, makes the range longer, or starts a new range behind a gap, and `joinSpans` has the
ranges as a list. They are the maximal runs of the addresses of the input.

`netaddrToRange_join` says this for `-j`. `netaddrToRange_smallest` is the result for `-J`:
no list of blocks with the addresses of the input is shorter than the printed one.

* A `Span` is a range as a pair of numbers, and `blockSpan` is that of a block. The loop of the
  source works on addresses, and the last address of all wraps, so the numbers are what the proofs
  count with.
* `Ahead s nas` is the invariant of the loop. Sorting gives it, since a block that starts within
  another lies in it whole.
* `SplitAll spans bs` says that `bs` are the blocks of the ranges one after the other. With gaps
  between the ranges, the fewest blocks of each are the fewest of all.
-/

set_option autoImplicit false

namespace MyTestFiles.Proofs.IpRange

open MyTestFiles.Lib
open MyTestFiles.IpRange

/-! ### The order of `compar_netaddr` -/

section Order
variable {na nb nc : NetworkAddr}

/-- The order of the comparison: by address, and a larger block before a smaller one at the same
address. -/
theorem comparNetaddr_le_iff :
    comparNetaddr na nb ≤ 0 ↔ na.addr < nb.addr ∨ (na.addr = nb.addr ∧ na.pfx ≤ nb.pfx) := by
  have heq : na.addr = nb.addr ↔ na.addr.toNat = nb.addr.toNat := BitVec.toNat_inj.symm
  simp only [comparNetaddr, heq, BitVec.lt_def]
  split_ifs <;> omega

/-- The comparison is transitive. -/
theorem comparNetaddr_trans (h : comparNetaddr na nb ≤ 0) (h' : comparNetaddr nb nc ≤ 0) :
    comparNetaddr na nc ≤ 0 := by
  rw [comparNetaddr_le_iff, BitVec.lt_def, ← BitVec.toNat_inj] at h h' ⊢
  omega

/-- Any two blocks can be compared. -/
theorem comparNetaddr_total (na nb : NetworkAddr) :
    comparNetaddr na nb ≤ 0 ∨ comparNetaddr nb na ≤ 0 := by
  rw [comparNetaddr_le_iff, comparNetaddr_le_iff, BitVec.lt_def, BitVec.lt_def,
    ← BitVec.toNat_inj, ← BitVec.toNat_inj]
  omega

/-- The sorted list is in the order of the comparison. -/
theorem pairwise_sortNetaddrs (netaddrs : List NetworkAddr) :
    (sortNetaddrs netaddrs).Pairwise fun na nb => comparNetaddr na nb ≤ 0 := by
  have hsorted : (sortNetaddrs netaddrs).Pairwise fun na nb =>
      decide (comparNetaddr na nb ≤ 0) = true := by
    refine List.pairwise_mergeSort (fun a b c hab hbc => ?_) (fun a b => ?_) netaddrs
    · rw [decide_eq_true_eq] at hab hbc ⊢
      exact comparNetaddr_trans hab hbc
    · rw [Bool.or_eq_true, decide_eq_true_eq, decide_eq_true_eq]
      exact comparNetaddr_total a b
  exact hsorted.imp of_decide_eq_true

/-- Sorting keeps the blocks. -/
theorem mem_sortNetaddrs {netaddrs : List NetworkAddr} :
    na ∈ sortNetaddrs netaddrs ↔ na ∈ netaddrs :=
  (List.mergeSort_perm _ _).mem_iff

/-- A block that is not before another is inside it or behind it. -/
theorem inside_or_behind (hna : IsBlock na) (hnb : IsBlock nb) (h : comparNetaddr na nb ≤ 0) :
    broadcast nb.addr nb.pfx ≤ broadcast na.addr na.pfx ∨
      broadcast na.addr na.pfx < nb.addr := by
  by_cases hbehind : broadcast na.addr na.pfx < nb.addr
  · exact .inr hbehind
  have hge := BitVec.not_lt.mp hbehind
  left
  rw [comparNetaddr_le_iff] at h
  have hfirst : nb.addr ∈ hosts nb := hnb.2
  have hmeet : nb.addr ∈ hosts na := by
    refine (mem_hosts_iff_le hna).mpr ⟨?_, hge⟩
    rcases h with h | h
    · exact BitVec.le_of_lt h
    · rw [h.1]
      exact BitVec.le_refl _
  have hlast : broadcast nb.addr nb.pfx ∈ hosts nb :=
    (mem_hosts_iff_le hnb).mpr ⟨((mem_hosts_iff_le hnb).mp hfirst).2, BitVec.le_refl _⟩
  rcases Nat.le_total na.pfx nb.pfx with hpfx | hpfx
  · exact ((mem_hosts_iff_le hna).mp (hosts_subset hnb hna hpfx hfirst hmeet hlast)).2
  · -- the later block contains the first one, so it has the same first address
    have hin := hosts_subset hna hnb hpfx hmeet hfirst
    have hle := ((mem_hosts_iff_le hnb).mp (hin hna.2)).1
    rcases h with h | ⟨heq, hle'⟩
    · exact absurd hle (BitVec.not_le.mpr h)
    · rw [heq, Nat.le_antisymm hpfx hle']
      exact BitVec.le_refl _

end Order

/-! ### The ranges of the loop -/

/-- The addresses of a block as numbers. -/
def blockSpan (na : NetworkAddr) : Span where
  first := na.addr.toNat
  last := na.addr.toNat + (2 ^ (32 - na.pfx) - 1)
  le := Nat.le_add_right _ _

/-- The ranges that the loop prints, from a current range on. -/
def joinSpans (s : Span) : List NetworkAddr → List Span
  | [] => [s]
  | na :: nas =>
      if hin : (blockSpan na).last ≤ s.last then joinSpans s nas
      else if na.addr.toNat = s.last + 1 then
        joinSpans ⟨s.first, (blockSpan na).last, s.le.trans (Nat.le_of_not_le hin)⟩ nas
      else s :: joinSpans (blockSpan na) nas

/-- The loop's calls of `printJoined`, in order. -/
def printSpans (jflg : Bool) : List Span → Output
  | [] => Output.nothing
  | [s] => printJoined jflg (BitVec.ofNat 32 s.first) (BitVec.ofNat 32 s.last)
  | s :: t :: spans =>
      (printJoined jflg (BitVec.ofNat 32 s.first) (BitVec.ofNat 32 s.last)).andThen
        (printSpans jflg (t :: spans))

/-- The blocks to come, sorted, each inside the current range or behind it. -/
structure Ahead (s : Span) (nas : List NetworkAddr) : Prop where
  last_lt : s.last < 2 ^ 32
  isBlock : ∀ na ∈ nas, IsBlock na
  sorted : nas.Pairwise fun na nb => comparNetaddr na nb ≤ 0
  place : ∀ na ∈ nas, s.first ≤ na.addr.toNat ∧
    ((blockSpan na).last ≤ s.last ∨ s.last < na.addr.toNat)

section Ahead
variable {s : Span} {na : NetworkAddr} {nas : List NetworkAddr} {x : InAddr}

/-- The broadcast address is the last number of the span of a block. -/
theorem toNat_broadcast_eq (h : IsBlock na) :
    (broadcast na.addr na.pfx).toNat = (blockSpan na).last := by
  have hpos := Nat.two_pow_pos (32 - na.pfx)
  rw [(aligned_of_network_eq h.1 h.2).toNat_broadcast h.1]
  exact Nat.add_sub_assoc hpos _

/-- The hosts of a block are the numbers of its span. -/
theorem mem_hosts_iff_span (h : IsBlock na) :
    x ∈ hosts na ↔ (blockSpan na).first ≤ x.toNat ∧ x.toNat ≤ (blockSpan na).last := by
  rw [mem_hosts_iff_le h, BitVec.le_def, BitVec.le_def, toNat_broadcast_eq h]
  rfl

/-- The blocks that are left are still ahead when one is skipped. -/
theorem Ahead.tail (h : Ahead s (na :: nas)) : Ahead s nas where
  last_lt := h.last_lt
  isBlock := fun nb hnb => h.isBlock nb (List.mem_cons_of_mem na hnb)
  sorted := (List.pairwise_cons.mp h.sorted).2
  place := fun nb hnb => h.place nb (List.mem_cons_of_mem na hnb)

/-- After a sorted first block, all others are ahead of any range with its last address. -/
theorem ahead_of_cons (hblocks : ∀ nb ∈ na :: nas, IsBlock nb)
    (hsorted : (na :: nas).Pairwise fun na nb => comparNetaddr na nb ≤ 0)
    (hfirst : s.first ≤ na.addr.toNat) (hlast : s.last = (blockSpan na).last) :
    Ahead s nas := by
  have hna := hblocks na List.mem_cons_self
  refine ⟨?_, fun nb hnb => hblocks nb (List.mem_cons_of_mem na hnb),
    (List.pairwise_cons.mp hsorted).2, fun nb hnb => ?_⟩
  · rw [hlast, ← toNat_broadcast_eq hna]
    exact (broadcast na.addr na.pfx).isLt
  · have hblock := hblocks nb (List.mem_cons_of_mem na hnb)
    have hle := (List.pairwise_cons.mp hsorted).1 nb hnb
    have hplace := inside_or_behind hna hblock hle
    rw [BitVec.le_def, BitVec.lt_def, toNat_broadcast_eq hna, toNat_broadcast_eq hblock,
      ← hlast] at hplace
    rw [comparNetaddr_le_iff, BitVec.lt_def, ← BitVec.toNat_inj] at hle
    exact ⟨by omega, hplace⟩

/-- The blocks behind one are ahead of the range that starts with it. -/
theorem Ahead.start (h : Ahead s (na :: nas)) : Ahead (blockSpan na) nas :=
  ahead_of_cons h.isBlock h.sorted (Nat.le_refl _) rfl

/-- The blocks behind one are ahead of the range that it makes longer. -/
theorem Ahead.extend (h : Ahead s (na :: nas)) (hin : ¬ (blockSpan na).last ≤ s.last) :
    Ahead ⟨s.first, (blockSpan na).last, s.le.trans (Nat.le_of_not_le hin)⟩ nas :=
  ahead_of_cons h.isBlock h.sorted (h.place na List.mem_cons_self).1 rfl

/-- The current range keeps its first address. -/
theorem exists_joinSpans_eq_cons (s : Span) (nas : List NetworkAddr) :
    ∃ t ts, joinSpans s nas = t :: ts ∧ t.first = s.first := by
  induction nas generalizing s with
  | nil => exact ⟨s, [], rfl, rfl⟩
  | cons na nas ih =>
      rw [joinSpans]
      split_ifs with hin hnext
      · exact ih s
      · exact ih _
      · exact ⟨s, _, rfl, rfl⟩

/-- The last number of a range is an address, so it does not wrap. -/
theorem toNat_ofNat_last (h : Ahead s nas) : (BitVec.ofNat 32 s.last).toNat = s.last := by
  rw [BitVec.toNat_ofNat]
  exact Nat.mod_eq_of_lt h.last_lt

/-- The loop prints the ranges of `joinSpans`. -/
theorem joinFrom_eq (jflg : Bool) (h : Ahead s nas) :
    joinFrom jflg (BitVec.ofNat 32 s.first) (BitVec.ofNat 32 s.last) nas
      = printSpans jflg (joinSpans s nas) := by
  induction nas generalizing s with
  | nil => rfl
  | cons na nas ih =>
      have hna := h.isBlock na List.mem_cons_self
      have hplace := (h.place na List.mem_cons_self).2
      have hlt := na.addr.isLt
      have hlast : broadcast na.addr na.pfx = BitVec.ofNat 32 (blockSpan na).last := by
        rw [← toNat_broadcast_eq hna, BitVec.ofNat_toNat, BitVec.setWidth_eq]
      have hfirst : na.addr = BitVec.ofNat 32 (blockSpan na).first := by
        show na.addr = BitVec.ofNat 32 na.addr.toNat
        rw [BitVec.ofNat_toNat, BitVec.setWidth_eq]
      have hle : broadcast na.addr na.pfx ≤ BitVec.ofNat 32 s.last ↔
          (blockSpan na).last ≤ s.last := by
        rw [BitVec.le_def, toNat_broadcast_eq hna, toNat_ofNat_last h]
      rw [joinFrom, joinSpans]
      by_cases hin : (blockSpan na).last ≤ s.last
      · rw [if_pos (hle.mpr hin), dif_pos hin]
        exact ih h.tail
      · -- the block is behind the range, so that the sum with one does not wrap
        have hnext : na.addr = BitVec.ofNat 32 s.last + 1 ↔ na.addr.toNat = s.last + 1 := by
          have hsum : (BitVec.ofNat 32 s.last + 1).toNat = s.last + 1 := by
            have hsmall : s.last + 1 < 2 ^ 32 := by omega
            rw [BitVec.toNat_add, toNat_ofNat_last h]
            exact Nat.mod_eq_of_lt hsmall
          rw [← BitVec.toNat_inj, hsum]
        rw [if_neg (mt hle.mp hin), dif_neg hin]
        -- The block extends the range, or the range is printed and the block starts the next.
        by_cases hadjacent : na.addr.toNat = s.last + 1
        · rw [if_pos (hnext.mpr hadjacent), if_pos hadjacent, hlast]
          exact ih (h.extend hin)
        · rw [if_neg (mt hnext.mp hadjacent), if_neg hadjacent]
          obtain ⟨t, ts, hspans, -⟩ := exists_joinSpans_eq_cons (blockSpan na) nas
          have hrest := ih h.start
          rw [← hfirst, ← hlast] at hrest
          rw [hrest, hspans, printSpans]

/-- The ranges hold the addresses of the current range and of the blocks. -/
theorem mem_joinSpans {p : Nat} (h : Ahead s nas) :
    p ∈ (joinSpans s nas).flatMap Span.numbers ↔
      p ∈ s.numbers ∨ ∃ na ∈ nas, p ∈ (blockSpan na).numbers := by
  induction nas generalizing s with
  | nil => simp [joinSpans]
  | cons na nas ih =>
      have hplace := h.place na List.mem_cons_self
      have hsle := s.le
      have hble := (blockSpan na).le
      have hfirst : (blockSpan na).first = na.addr.toNat := rfl
      rw [joinSpans, List.exists_mem_cons_iff]
      by_cases hin : (blockSpan na).last ≤ s.last
      · -- the block adds nothing to the range
        rw [dif_pos hin, ih h.tail, Span.mem_numbers, Span.mem_numbers]
        constructor
        · rintro (hp | hp)
          · exact .inl hp
          · exact .inr (.inr hp)
        · rintro (hp | hp | hp)
          · exact .inl hp
          · exact .inl (by omega)
          · exact .inr hp
      · rw [dif_neg hin]
        by_cases hnext : na.addr.toNat = s.last + 1
        · rw [if_pos hnext, ih (h.extend hin), ← or_assoc]
          refine or_congr ?_ Iff.rfl
          simp only [Span.mem_numbers]
          omega
        · rw [if_neg hnext, List.flatMap_cons, List.mem_append, ih h.start]

/-- An address is missing between two ranges. -/
theorem isChain_joinSpans (h : Ahead s nas) : (joinSpans s nas).IsChain Span.Before := by
  induction nas generalizing s with
  | nil => exact List.IsChain.singleton s
  | cons na nas ih =>
      have hplace := h.place na List.mem_cons_self
      rw [joinSpans]
      split_ifs with hin hnext
      · exact ih h.tail
      · exact ih (h.extend hin)
      · have hchain := ih h.start
        obtain ⟨t, ts, hspans, hfirst⟩ := exists_joinSpans_eq_cons (blockSpan na) nas
        have hbefore : s.Before t := by
          show s.last + 1 < t.first
          rw [hfirst]
          show s.last + 1 < na.addr.toNat
          omega
        rw [hspans] at hchain ⊢
        exact List.IsChain.cons_cons hbefore hchain

end Ahead

/-! ### What is printed -/

/-- The line of a range. -/
def rangeLine (s : Span) : Line := .range (BitVec.ofNat 32 s.first) (BitVec.ofNat 32 s.last)

/-- The ranges of some blocks: an address is missing between two of them, and they have the
addresses of the blocks. -/
structure IsJoin (netaddrs : List Block) (spans : List Span) : Prop where
  gaps : spans.IsChain Span.Before
  last_lt : ∀ s ∈ spans, s.last < 2 ^ 32
  mem : ∀ x : InAddr,
    (∃ s ∈ spans, x.toNat ∈ s.numbers) ↔ ∃ na ∈ netaddrs, x ∈ hosts na.val

section Printed
variable {netaddrs netaddrs' : List Block} {spans spans' : List Span}

/-- What the command prints depends on the ranges of its blocks. -/
theorem exists_isJoin (netaddrs : List Block) :
    ∃ spans, IsJoin netaddrs spans ∧
      ∀ jflg, netaddrToRange jflg netaddrs = printSpans jflg spans := by
  have hmem : ∀ na, na ∈ sortNetaddrs (netaddrs.map Subtype.val) ↔ na ∈ netaddrs.map Subtype.val :=
    fun na => mem_sortNetaddrs
  have hsorted := pairwise_sortNetaddrs (netaddrs.map Subtype.val)
  have hblocks : ∀ na ∈ sortNetaddrs (netaddrs.map Subtype.val), IsBlock na := by
    intro na hna
    obtain ⟨na', -, rfl⟩ := List.mem_map.mp ((hmem na).mp hna)
    exact na'.property
  have hsame : ∀ x : InAddr, (∃ na ∈ sortNetaddrs (netaddrs.map Subtype.val), x ∈ hosts na) ↔
      ∃ na ∈ netaddrs, x ∈ hosts na.val := by
    intro x
    simp only [hmem, List.mem_map, exists_exists_and_eq_and]
  simp only [netaddrToRange]
  -- The ranges are those of the sorted blocks, which have the same addresses.
  cases hlist : sortNetaddrs (netaddrs.map Subtype.val) with
  | nil =>
      refine ⟨[], ⟨List.IsChain.nil, by simp, fun x => ?_⟩, fun jflg => rfl⟩
      rw [← hsame x, hlist]
      simp
  | cons na nas =>
      rw [hlist] at hsorted hblocks hsame
      have hna := hblocks na List.mem_cons_self
      have hahead : Ahead (blockSpan na) nas := ahead_of_cons hblocks hsorted (Nat.le_refl _) rfl
      have hspans : ∀ p, p ∈ (joinSpans (blockSpan na) nas).flatMap Span.numbers ↔
          ∃ nb ∈ na :: nas, p ∈ (blockSpan nb).numbers := by
        intro p
        rw [mem_joinSpans hahead, List.exists_mem_cons_iff]
      refine ⟨joinSpans (blockSpan na) nas, ⟨isChain_joinSpans hahead, ?_, fun x => ?_⟩, ?_⟩
      · -- the last address of a range is one of a block
        intro s hs
        obtain ⟨nb, hnb, hlast⟩ := (hspans s.last).mp
          (List.mem_flatMap.mpr ⟨s, hs, Span.mem_numbers.mpr ⟨s.le, Nat.le_refl _⟩⟩)
        have hlt := (broadcast nb.addr nb.pfx).isLt
        rw [toNat_broadcast_eq (hblocks nb hnb)] at hlt
        exact (Span.mem_numbers.mp hlast).2.trans_lt hlt
      · rw [← hsame x, ← List.mem_flatMap, hspans]
        refine exists_congr fun nb => and_congr_right fun hnb => ?_
        rw [mem_hosts_iff_span (hblocks nb hnb), Span.mem_numbers]
      · intro jflg
        have hfirst : na.addr = BitVec.ofNat 32 (blockSpan na).first := by
          show na.addr = BitVec.ofNat 32 na.addr.toNat
          rw [BitVec.ofNat_toNat, BitVec.setWidth_eq]
        have hlast : broadcast na.addr na.pfx = BitVec.ofNat 32 (blockSpan na).last := by
          rw [← toNat_broadcast_eq hna, BitVec.ofNat_toNat, BitVec.setWidth_eq]
        have hjoin := joinFrom_eq jflg hahead
        rw [← hfirst, ← hlast] at hjoin
        exact hjoin

/-- Blocks with the same addresses have the same ranges. -/
theorem IsJoin.unique (h : IsJoin netaddrs spans) (h' : IsJoin netaddrs' spans')
    (hsame : ∀ x, (∃ na ∈ netaddrs, x ∈ hosts na.val) ↔ ∃ na ∈ netaddrs', x ∈ hosts na.val) :
    spans = spans' := by
  have hnumbers : ∀ p, p ∈ spans.flatMap Span.numbers ↔ p ∈ spans'.flatMap Span.numbers := by
    intro p
    rw [List.mem_flatMap, List.mem_flatMap]
    rcases Nat.lt_or_ge p (2 ^ 32) with hlt | hge
    · have hp : (BitVec.ofNat 32 p).toNat = p := by
        rw [BitVec.toNat_ofNat]
        exact Nat.mod_eq_of_lt hlt
      rw [← hp, h.mem, h'.mem, hsame]
    · refine iff_of_false ?_ ?_
      · rintro ⟨s, hs, hps⟩
        have hlast := h.last_lt s hs
        have hle := (Span.mem_numbers.mp hps).2
        omega
      · rintro ⟨s, hs, hps⟩
        have hlast := h'.last_lt s hs
        have hle := (Span.mem_numbers.mp hps).2
        omega
  rw [eq_runs_of_mem h.gaps (pairwise_numbers h'.gaps) hnumbers, ← eq_runs h'.gaps]

/-- Without a split, each range is printed as it is. -/
theorem printSpans_false (spans : List Span) :
    printSpans false spans = ⟨spans.map rangeLine, 0, none⟩ := by
  induction spans with
  | nil => rfl
  | cons s spans ih =>
      cases spans with
      | nil => rfl
      | cons t spans =>
          rw [printSpans, ih]
          rfl

/-- `-j` prints the maximal ranges of the addresses of its blocks, ascending, and nothing
else. -/
theorem netaddrToRange_join (netaddrs : List Block) :
    ∃ spans, IsJoin netaddrs spans ∧
      netaddrToRange false netaddrs = ⟨spans.map rangeLine, 0, none⟩ := by
  obtain ⟨spans, hjoin, heq⟩ := exists_isJoin netaddrs
  exact ⟨spans, hjoin, by rw [heq, printSpans_false]⟩

/-! ### The ranges split again -/

/-- The blocks of some ranges, one range after another. -/
inductive SplitAll : List Span → List NetworkAddr → Prop where
  | nil : SplitAll [] []
  | cons {s : Span} {spans : List Span} {bs bs' : List NetworkAddr} {calls : Nat}
      (hsplit : Splits 0 0 (BitVec.ofNat 32 s.first) (BitVec.ofNat 32 s.last) bs calls)
      (hrest : SplitAll spans bs') : SplitAll (s :: spans) (bs ++ bs')

/-- The addresses of a range are the numbers of its span. -/
theorem mem_addresses_iff {s : Span} (hlast : s.last < 2 ^ 32) {x : InAddr} :
    x ∈ addresses (BitVec.ofNat 32 s.first) (BitVec.ofNat 32 s.last) ↔ x.toNat ∈ s.numbers := by
  have hle := s.le
  show _ ≤ _ ∧ _ ≤ _ ↔ _
  rw [BitVec.le_def, BitVec.le_def, BitVec.toNat_ofNat, BitVec.toNat_ofNat,
    Nat.mod_eq_of_lt hlast, Nat.mod_eq_of_lt (hle.trans_lt hlast), Span.mem_numbers]

/-- With a split, the blocks of the ranges are printed one range after the other. -/
theorem splitAll_printSpans (hlast : ∀ s ∈ spans, s.last < 2 ^ 32) :
    ∃ bs calls, printSpans true spans = ⟨bs.map blockLine, calls, none⟩ ∧ SplitAll spans bs := by
  induction spans with
  | nil => exact ⟨[], 0, rfl, .nil⟩
  | cons s spans ih =>
      have hrange : BitVec.ofNat 32 s.first ≤ BitVec.ofNat 32 s.last := by
        have hs := hlast s List.mem_cons_self
        rw [BitVec.le_def, BitVec.toNat_ofNat, BitVec.toNat_ofNat, Nat.mod_eq_of_lt hs,
          Nat.mod_eq_of_lt (s.le.trans_lt hs)]
        exact s.le
      obtain ⟨bs, calls, hone, hsplit⟩ := splits_splitRange (within_all hrange)
      obtain ⟨bs', calls', hmore, hrest⟩ := ih fun t ht => hlast t (List.mem_cons_of_mem s ht)
      cases spans with
      | nil =>
          have hcons := SplitAll.cons hsplit .nil
          rw [List.append_nil] at hcons
          exact ⟨bs, calls, hone, hcons⟩
      | cons t spans =>
          refine ⟨bs ++ bs', calls + calls', ?_, .cons hsplit hrest⟩
          rw [printSpans, hmore, ← andThen_blocks, ← hone]
          rfl

/-- Each block comes from one of the ranges. -/
theorem SplitAll.exists_splits {bs : List NetworkAddr} (h : SplitAll spans bs) {na : NetworkAddr}
    (hna : na ∈ bs) :
    ∃ s ∈ spans, ∃ bs' calls, na ∈ bs' ∧
      Splits 0 0 (BitVec.ofNat 32 s.first) (BitVec.ofNat 32 s.last) bs' calls := by
  induction h with
  | nil => exact absurd hna List.not_mem_nil
  | cons hsplit _ ih =>
      rcases List.mem_append.mp hna with hna | hna
      · exact ⟨_, List.mem_cons_self, _, _, hna, hsplit⟩
      · obtain ⟨t, ht, hmore⟩ := ih hna
        exact ⟨t, List.mem_cons_of_mem _ ht, hmore⟩

/-- What is printed are blocks. -/
theorem SplitAll.isBlock {bs : List NetworkAddr} (h : SplitAll spans bs) :
    ∀ na ∈ bs, IsBlock na := by
  intro na hna
  obtain ⟨s, -, bs', calls, hna', hsplit⟩ := h.exists_splits hna
  exact hsplit.tiles.isBlock na hna'

/-- The blocks have the addresses of the ranges. -/
theorem SplitAll.mem_iff {bs : List NetworkAddr} (h : SplitAll spans bs)
    (hlast : ∀ s ∈ spans, s.last < 2 ^ 32) (x : InAddr) :
    (∃ na ∈ bs, x ∈ hosts na) ↔ ∃ s ∈ spans, x.toNat ∈ s.numbers := by
  induction h with
  | nil => simp
  | @cons s spans bs bs' calls hsplit _ ih =>
      have hone : (∃ na ∈ bs, x ∈ hosts na) ↔ x.toNat ∈ s.numbers := by
        rw [hsplit.tiles.mem_iff, Nat.lt_succ_iff,
          ← mem_addresses_iff (hlast s List.mem_cons_self)]
        rfl
      rw [List.exists_mem_cons_iff, ← hone, ← ih fun t ht => hlast t (List.mem_cons_of_mem s ht)]
      simp only [List.mem_append, or_and_right, exists_or]

/-- The blocks lie one behind the other, also across the gaps. -/
theorem SplitAll.pairwise {bs : List NetworkAddr} (h : SplitAll spans bs)
    (hgaps : spans.IsChain Span.Before) (hlast : ∀ s ∈ spans, s.last < 2 ^ 32) :
    bs.Pairwise Apart := by
  have hbefore := pairwise_before hgaps
  clear hgaps
  induction h with
  | nil => exact List.Pairwise.nil
  | @cons s spans bs bs' calls hsplit hrest ih =>
      rw [List.pairwise_cons] at hbefore
      have hlast' : ∀ t ∈ spans, t.last < 2 ^ 32 :=
        fun t ht => hlast t (List.mem_cons_of_mem s ht)
      refine List.pairwise_append.mpr ⟨hsplit.tiles.pairwise, ih hlast' hbefore.2, ?_⟩
      intro na hna nb hnb
      -- the last address of the first block is in the first range, the other block behind it
      have hblock := hsplit.tiles.isBlock na hna
      have hend := toNat_broadcast_eq hblock
      have hin : broadcast na.addr na.pfx ∈ hosts na :=
        (mem_hosts_iff_span hblock).mpr ⟨by rw [hend]; exact (blockSpan na).le, hend.le⟩
      have hle := (hsplit.tiles.mem_iff.mp ⟨na, hna, hin⟩).2
      rw [BitVec.toNat_ofNat, Nat.mod_eq_of_lt (hlast s List.mem_cons_self), hend] at hle
      obtain ⟨t, ht, hmem⟩ := (hrest.mem_iff hlast' nb.addr).mp
        ⟨nb, hnb, (hrest.isBlock nb hnb).2⟩
      have hgap := hbefore.1 t ht
      have hfirst := (Span.mem_numbers.mp hmem).1
      have hspan : (blockSpan na).last = na.addr.toNat + (2 ^ (32 - na.pfx) - 1) := rfl
      have hpos := Nat.two_pow_pos (32 - na.pfx)
      rw [Span.Before] at hgap
      rw [Apart]
      omega

/-- The blocks of a range are largest in all ranges together, since a block cannot cross a
gap. -/
theorem SplitAll.isLargest {bs : List NetworkAddr} (h : SplitAll spans bs)
    (hgaps : spans.IsChain Span.Before) (hlast : ∀ s ∈ spans, s.last < 2 ^ 32) :
    ∀ na ∈ bs, IsLargest blocks {x | ∃ s ∈ spans, x.toNat ∈ s.numbers} (hosts na) := by
  intro na hna
  obtain ⟨s, hs, bs', calls, hna', hsplit⟩ := h.exists_splits hna
  have hlast' := hlast s hs
  refine (hsplit.isLargest na hna').of_part (fun x hx => ⟨s, hs, (mem_addresses_iff hlast').mp hx⟩)
    ⟨na.addr, (h.isBlock na hna).2⟩ ?_
  rintro B ⟨nb, hnb, rfl⟩ hB y hy hys y' hy'
  rw [mem_addresses_iff hlast'] at hys ⊢
  refine mem_of_between hgaps hs hys fun r hmin hmax => ?_
  rw [mem_hosts_iff_span hnb] at hy hy'
  have hsmall : r < 2 ^ 32 := by
    have h1 := y.isLt
    have h2 := y'.isLt
    omega
  have hr : (BitVec.ofNat 32 r).toNat = r := by
    rw [BitVec.toNat_ofNat]
    exact Nat.mod_eq_of_lt hsmall
  obtain ⟨t, ht, hmem⟩ := hB ((mem_hosts_iff_span hnb).mpr (by rw [hr]; omega))
  exact ⟨t, ht, by rwa [hr] at hmem⟩

/-- `-J` prints blocks with the addresses of its input, each before the next one, and no list
of blocks with these addresses is shorter. -/
theorem netaddrToRange_smallest (netaddrs : List Block) :
    ∃ (bs : List NetworkAddr) (calls : Nat),
      netaddrToRange true netaddrs = ⟨bs.map blockLine, calls, none⟩ ∧
      (∀ na ∈ bs, IsBlock na) ∧ bs.Pairwise Apart ∧
      (∀ x, (∃ na ∈ bs, x ∈ hosts na) ↔ ∃ na ∈ netaddrs, x ∈ hosts na.val) ∧
      ∀ cover : List NetworkAddr, (∀ na ∈ cover, IsBlock na) →
        (∀ x, (∃ na ∈ cover, x ∈ hosts na) ↔ ∃ na ∈ netaddrs, x ∈ hosts na.val) →
        bs.length ≤ cover.length := by
  obtain ⟨spans, hjoin, heq⟩ := exists_isJoin netaddrs
  obtain ⟨bs, calls, hprint, hall⟩ := splitAll_printSpans hjoin.last_lt
  refine ⟨bs, calls, (heq true).trans hprint, hall.isBlock, hall.pairwise hjoin.gaps hjoin.last_lt,
    fun x => ?_, fun cover hblocks hcover => ?_⟩
  · rw [hall.mem_iff hjoin.last_lt, hjoin.mem]
  · refine length_le_of_isLargest hall.isBlock (hall.pairwise hjoin.gaps hjoin.last_lt)
      (hall.isLargest hjoin.gaps hjoin.last_lt) hblocks fun x => ?_
    rw [hcover x, ← hjoin.mem]
    rfl

/-- The blocks that `-J` prints are an input with the same output as the first one, and so is
every list of blocks with the same addresses: the output depends on the set of addresses only,
and a second pass changes nothing. -/
theorem netaddrToRange_rejoin (netaddrs : List Block) :
    ∃ bs : List Block,
      (netaddrToRange true netaddrs).printed = bs.map (fun na => blockLine na.val) ∧
      ∀ (jflg : Bool) (again : List Block),
        (∀ x, (∃ na ∈ again, x ∈ hosts na.val) ↔ ∃ na ∈ bs, x ∈ hosts na.val) →
        netaddrToRange jflg again = netaddrToRange jflg netaddrs := by
  obtain ⟨spans, hjoin, heq⟩ := exists_isJoin netaddrs
  obtain ⟨bs, calls, hprint, hall⟩ := splitAll_printSpans hjoin.last_lt
  refine ⟨bs.attachWith _ hall.isBlock, ?_, fun jflg again hsame => ?_⟩
  · rw [heq, hprint]
    show bs.map blockLine = (bs.attachWith _ hall.isBlock).map (blockLine ∘ Subtype.val)
    rw [← List.map_map, List.attachWith_map_subtype_val]
  -- Both inputs have the same addresses, and the maximal ranges of a set are unique.
  · obtain ⟨spans', hjoin', heq'⟩ := exists_isJoin again
    have hmem : ∀ x, (∃ na ∈ again, x ∈ hosts na.val) ↔ ∃ na ∈ netaddrs, x ∈ hosts na.val := by
      intro x
      rw [hsame x, ← hjoin.mem, ← hall.mem_iff hjoin.last_lt]
      constructor
      · rintro ⟨na, hna, hx⟩
        exact ⟨na.val, (List.mem_attachWith _ _).mp hna, hx⟩
      · rintro ⟨na, hna, hx⟩
        exact ⟨⟨na, hall.isBlock na hna⟩, (List.mem_attachWith _ _).mpr hna, hx⟩
    rw [heq', heq, hjoin'.unique hjoin hmem]

end Printed

end MyTestFiles.Proofs.IpRange
