import MyTestFiles.Proofs.IpRange.Blocks

/-!
# `MyTestFiles.Proofs.IpRange.Split`: the blocks of a range

`Splits` is the call tree of a `split_range` that succeeds: the range is the whole block, or
it is inside one half, or it is split between the halves. `splits_splitRange` gives the tree
of every range inside a block, and the facts about the printed blocks are inductions over
it: they lie end to end (`Splits.tiles`), none can be larger (`Splits.isLargest`), and
`Splits.bounds` counts them and the calls.

`splitBetween_smallest` puts these together for the command `-s`, and `splitRange_reversed`
is the run on a range that ends before it starts.

* The tree follows the recursion of the source, with the prefix one longer in each half. Its calls
  are counted in the relation, so one induction gives both bounds.
* A block that is printed whole has a sibling with an address outside the range, or is the range.
  This is what makes it as large as any block inside the range, and what `Splits.isLargest`
  proves.
* A range that ends before it starts reaches a prefix of 33, which the source refuses. The calls
  on the way there print nothing.
-/

set_option autoImplicit false

namespace MyTestFiles.Proofs.IpRange

open MyTestFiles.Lib
open MyTestFiles.IpRange

section Split
variable {addr lo hi x : InAddr} {pfx calls calls' : Nat} {bs bs' : List NetworkAddr}

/-- The line of a block. -/
def blockLine (na : NetworkAddr) : Line := .addr na.addr na.pfx

/-- A range inside a block. -/
structure Within (addr : InAddr) (pfx : Nat) (lo hi : InAddr) : Prop where
  pfx_le : pfx ≤ 32
  aligned : Aligned addr pfx
  addr_le : addr ≤ lo
  le : lo ≤ hi
  le_broadcast : hi ≤ broadcast addr pfx

/-- The first address of the upper half of a block. -/
abbrev upperHalf (addr : InAddr) (pfx : Nat) : InAddr := setBit addr (pfx + 1) true

/-- A call on a block and a range inside it: the blocks that it prints, in order, and the number of
calls that it takes. -/
inductive Splits : InAddr → Nat → InAddr → InAddr → List NetworkAddr → Nat → Prop where
  | whole {addr : InAddr} {pfx : Nat} (h : Within addr pfx addr (broadcast addr pfx)) :
      Splits addr pfx addr (broadcast addr pfx) [⟨addr, pfx⟩] 1
  | lower {addr lo hi : InAddr} {pfx calls : Nat} {bs : List NetworkAddr}
      (h : Within addr pfx lo hi) (hpfx : pfx < 32) (hhi : hi < upperHalf addr pfx)
      (hhalf : Splits addr (pfx + 1) lo hi bs calls) : Splits addr pfx lo hi bs (calls + 1)
  | upper {addr lo hi : InAddr} {pfx calls : Nat} {bs : List NetworkAddr}
      (h : Within addr pfx lo hi) (hpfx : pfx < 32) (hlo : upperHalf addr pfx ≤ lo)
      (hhalf : Splits (upperHalf addr pfx) (pfx + 1) lo hi bs calls) :
      Splits addr pfx lo hi bs (calls + 1)
  | both {addr lo hi : InAddr} {pfx calls calls' : Nat} {bs bs' : List NetworkAddr}
      (h : Within addr pfx lo hi) (hpfx : pfx < 32)
      (hpart : ¬ (lo = addr ∧ hi = broadcast addr pfx))
      (hlo : lo < upperHalf addr pfx) (hhi : upperHalf addr pfx ≤ hi)
      (hlower : Splits addr (pfx + 1) lo (broadcast addr (pfx + 1)) bs calls)
      (hupper : Splits (upperHalf addr pfx) (pfx + 1) (upperHalf addr pfx) hi bs' calls') :
      Splits addr pfx lo hi (bs ++ bs') (calls + calls' + 1)

/-- The two halves of a block as numbers. -/
theorem Aligned.halves (h : Aligned addr pfx) (hpfx : pfx < 32) :
    (upperHalf addr pfx).toNat = addr.toNat + 2 ^ (32 - (pfx + 1)) ∧
    (broadcast addr (pfx + 1)).toNat + 1 = addr.toNat + 2 ^ (32 - (pfx + 1)) ∧
    (broadcast (upperHalf addr pfx) (pfx + 1)).toNat = (broadcast addr pfx).toNat ∧
    (broadcast addr pfx).toNat + 1 =
      addr.toNat + 2 ^ (32 - (pfx + 1)) + 2 ^ (32 - (pfx + 1)) := by
  have hupper : (upperHalf addr pfx).toNat = addr.toNat + 2 ^ (32 - (pfx + 1)) :=
    h.toNat_setBit hpfx
  have hpos : 0 < 2 ^ (32 - (pfx + 1)) := Nat.two_pow_pos _
  have hdouble : 2 ^ (32 - pfx) = 2 ^ (32 - (pfx + 1)) + 2 ^ (32 - (pfx + 1)) := by
    have hsucc : 32 - pfx = 32 - (pfx + 1) + 1 := by omega
    rw [hsucc, Nat.pow_succ, Nat.mul_two]
  have hlowerEnd := h.lower.toNat_broadcast hpfx
  have hupperEnd : (broadcast (upperHalf addr pfx) (pfx + 1)).toNat = _ :=
    (h.upper hpfx).toNat_broadcast hpfx
  have hend := h.toNat_broadcast (Nat.le_of_lt hpfx)
  rw [hupper] at hupperEnd
  rw [hdouble] at hend
  generalize 2 ^ (32 - (pfx + 1)) = half at *
  omega

namespace Within

/-- The block around a range is one: its address has no bits behind the prefix. -/
theorem isBlock (h : Within addr pfx lo hi) : IsBlock ⟨addr, pfx⟩ :=
  ⟨h.pfx_le, h.aligned.network_eq h.pfx_le⟩

/-- The hosts of a block lie between its address and its broadcast address. -/
theorem mem_hosts (h : Within addr pfx lo hi) :
    x ∈ hosts ⟨addr, pfx⟩ ↔
      addr.toNat ≤ x.toNat ∧ x.toNat ≤ (broadcast addr pfx).toNat :=
  mem_hosts_iff_le h.isBlock

/-- The broadcast address is not before the address of the block. -/
theorem addr_le_broadcast (h : Within addr pfx lo hi) :
    addr.toNat ≤ (broadcast addr pfx).toNat :=
  (BitVec.le_def.mp h.addr_le).trans
    ((BitVec.le_def.mp h.le).trans (BitVec.le_def.mp h.le_broadcast))

/-- A block of one address is the whole range. -/
theorem pfx_lt (h : Within addr pfx lo hi) (hpart : ¬ (lo = addr ∧ hi = broadcast addr pfx)) :
    pfx < 32 := by
  refine Nat.lt_of_le_of_ne h.pfx_le ?_
  rintro rfl
  have hend := h.aligned.toNat_broadcast h.pfx_le
  have h1 := BitVec.le_def.mp h.addr_le
  have h2 := BitVec.le_def.mp h.le
  have h3 := BitVec.le_def.mp h.le_broadcast
  simp only [Nat.sub_self, Nat.pow_zero, Nat.add_sub_cancel] at hend
  exact hpart ⟨BitVec.eq_of_toNat_eq (by omega), BitVec.eq_of_toNat_eq (by omega)⟩

/-- A range that ends before the upper half lies in the lower half. -/
theorem lower (h : Within addr pfx lo hi) (hpfx : pfx < 32) (hhi : hi < upperHalf addr pfx) :
    Within addr (pfx + 1) lo hi := by
  obtain ⟨hupper, hlowerEnd, -, -⟩ := h.aligned.halves hpfx
  refine ⟨hpfx, h.aligned.lower, h.addr_le, h.le, ?_⟩
  rw [BitVec.le_def]
  rw [BitVec.lt_def] at hhi
  omega

/-- A range that starts in the upper half lies in it. -/
theorem upper (h : Within addr pfx lo hi) (hpfx : pfx < 32) (hlo : upperHalf addr pfx ≤ lo) :
    Within (upperHalf addr pfx) (pfx + 1) lo hi := by
  obtain ⟨-, -, hupperEnd, -⟩ := h.aligned.halves hpfx
  refine ⟨hpfx, h.aligned.upper hpfx, hlo, h.le, ?_⟩
  rw [BitVec.le_def, hupperEnd]
  exact BitVec.le_def.mp h.le_broadcast

/-- A range over both halves begins with a range up to the end of the lower half. -/
theorem bothLower (h : Within addr pfx lo hi) (hpfx : pfx < 32)
    (hlo : lo < upperHalf addr pfx) :
    Within addr (pfx + 1) lo (broadcast addr (pfx + 1)) := by
  obtain ⟨hupper, hlowerEnd, -, -⟩ := h.aligned.halves hpfx
  refine ⟨hpfx, h.aligned.lower, h.addr_le, ?_, BitVec.le_refl _⟩
  rw [BitVec.le_def]
  rw [BitVec.lt_def] at hlo
  omega

/-- A range over both halves ends with a range from the start of the upper half. -/
theorem bothUpper (h : Within addr pfx lo hi) (hpfx : pfx < 32)
    (hhi : upperHalf addr pfx ≤ hi) :
    Within (upperHalf addr pfx) (pfx + 1) (upperHalf addr pfx) hi := by
  obtain ⟨-, -, hupperEnd, -⟩ := h.aligned.halves hpfx
  refine ⟨hpfx, h.aligned.upper hpfx, BitVec.le_refl _, hhi, ?_⟩
  rw [BitVec.le_def, hupperEnd]
  exact BitVec.le_def.mp h.le_broadcast

/-- A range that ends in the lower half does not end with the block. -/
theorem ne_broadcast (h : Within addr pfx lo hi) (hpfx : pfx < 32)
    (hhi : hi < upperHalf addr pfx) : hi ≠ broadcast addr pfx := by
  rintro rfl
  obtain ⟨hupper, -, -, hend⟩ := h.aligned.halves hpfx
  have hpos := Nat.two_pow_pos (32 - (pfx + 1))
  rw [BitVec.lt_def] at hhi
  omega

/-- A range that starts in the upper half does not start with the block. -/
theorem ne_addr (h : Within addr pfx lo hi) (hpfx : pfx < 32) (hlo : upperHalf addr pfx ≤ lo) :
    lo ≠ addr := by
  rintro rfl
  obtain ⟨hupper, -, -, -⟩ := h.aligned.halves hpfx
  have hpos := Nat.two_pow_pos (32 - (pfx + 1))
  rw [BitVec.le_def] at hlo
  omega

/-- The upper half ends with the block. -/
theorem broadcast_upperHalf (h : Within addr pfx lo hi) (hpfx : pfx < 32) :
    broadcast (upperHalf addr pfx) (pfx + 1) = broadcast addr pfx :=
  BitVec.eq_of_toNat_eq (h.aligned.halves hpfx).2.2.1

/-- A range that is split between the halves is not made of both halves, so that a half has
more than one address. -/
theorem pfx_succ_lt (h : Within addr pfx lo hi) (hpfx : pfx < 32)
    (hpart : ¬ (lo = addr ∧ hi = broadcast addr pfx)) (hlo : lo < upperHalf addr pfx)
    (hhi : upperHalf addr pfx ≤ hi) : pfx + 1 < 32 := by
  by_cases hfirst : lo = addr
  · refine (h.bothUpper hpfx hhi).pfx_lt fun hwhole => hpart ⟨hfirst, ?_⟩
    rw [hwhole.2, h.broadcast_upperHalf hpfx]
  · exact (h.bothLower hpfx hlo).pfx_lt fun hwhole => hfirst hwhole.1

end Within

/-- The output of two calls that both succeed: the blocks of the first, then those of the second,
and the calls of both. -/
theorem andThen_blocks (bs bs' : List NetworkAddr) (calls calls' : Nat) :
    Output.andThen ⟨bs.map blockLine, calls, none⟩ ⟨bs'.map blockLine, calls', none⟩
      = ⟨(bs ++ bs').map blockLine, calls + calls', none⟩ := by
  simp [Output.andThen]

/-- A range inside a block is split, and the call does not exit. -/
theorem splits_splitRange {addr lo hi : InAddr} {pfx : Nat} (h : Within addr pfx lo hi) :
    ∃ bs calls, splitRange addr pfx lo hi = ⟨bs.map blockLine, calls, none⟩ ∧
      Splits addr pfx lo hi bs calls := by
  have hrange : ¬ (lo < addr ∨ broadcast addr pfx < hi) := by
    rintro (hlo | hhi)
    · exact BitVec.not_lt.mpr h.addr_le hlo
    · exact BitVec.not_lt.mpr h.le_broadcast hhi
  rw [splitRange, dif_neg (by have := h.pfx_le; omega)]
  simp only [if_neg hrange]
  by_cases hwhole : lo = addr ∧ hi = broadcast addr pfx
  · -- the range is the block
    obtain ⟨rfl, rfl⟩ := hwhole
    refine ⟨[⟨lo, pfx⟩], 1, ?_, .whole h⟩
    rw [if_pos ⟨rfl, rfl⟩]
    rfl
  · have hpfx := h.pfx_lt hwhole
    rw [if_neg hwhole]
    -- The range lies in the lower half, in the upper half or in both.
    by_cases hhi : hi < upperHalf addr pfx
    · obtain ⟨bs, calls, heq, hsplits⟩ := splits_splitRange (h.lower hpfx hhi)
      refine ⟨bs, calls + 1, ?_, .lower h hpfx hhi hsplits⟩
      rw [if_pos hhi, heq]
      rfl
    · rw [if_neg hhi]
      have hhi' := BitVec.not_lt.mp hhi
      by_cases hlo : upperHalf addr pfx ≤ lo
      · obtain ⟨bs, calls, heq, hsplits⟩ := splits_splitRange (h.upper hpfx hlo)
        refine ⟨bs, calls + 1, ?_, .upper h hpfx hlo hsplits⟩
        rw [if_pos hlo, heq]
        rfl
      · -- the middle of the block is inside the range
        have hlo' := BitVec.not_le.mp hlo
        obtain ⟨bs, calls, heq, hlower⟩ := splits_splitRange (h.bothLower hpfx hlo')
        obtain ⟨bs', calls', heq', hupper⟩ := splits_splitRange (h.bothUpper hpfx hhi')
        refine ⟨bs ++ bs', calls + calls' + 1, ?_, .both h hpfx hwhole hlo' hhi' hlower hupper⟩
        rw [if_neg hlo, heq, heq', andThen_blocks]
        rfl
termination_by 33 - pfx

/-- Every call of the tree is on a range inside its block. -/
theorem Splits.within (h : Splits addr pfx lo hi bs calls) : Within addr pfx lo hi := by
  cases h <;> assumption

/-! ### The blocks lie end to end -/

/-- A block that ends before another starts. -/
def Apart (na nb : NetworkAddr) : Prop :=
  na.addr.toNat + 2 ^ (32 - na.pfx) ≤ nb.addr.toNat

/-- Blocks that lie one behind the other have no address in common. -/
theorem disjoint_of_apart (hblocks : ∀ na ∈ bs, IsBlock na) (h : bs.Pairwise Apart) :
    (bs.map hosts).Pairwise Disjoint := by
  refine List.pairwise_map.mpr (h.imp_of_mem fun {na nb} hna hnb hapart => ?_)
  refine Set.disjoint_left.mpr fun x hx hx' => ?_
  have hearly := ((mem_hosts_iff_lt (hblocks na hna)).mp hx).2
  have hlate := ((mem_hosts_iff_lt (hblocks nb hnb)).mp hx').1
  rw [Apart] at hapart
  omega

/-- Blocks that lie end to end, from the number `a` up to but not including `e`. -/
inductive Tiles : Nat → Nat → List NetworkAddr → Prop where
  | nil (a : Nat) : Tiles a a []
  | cons {e : Nat} {na : NetworkAddr} {bs : List NetworkAddr} (hna : IsBlock na)
      (hrest : Tiles (na.addr.toNat + 2 ^ (32 - na.pfx)) e bs) :
      Tiles na.addr.toNat e (na :: bs)

section Tiles
variable {a e e' : Nat}

/-- Blocks up to an address, and blocks from there on, tile the whole. -/
theorem Tiles.append (h : Tiles a e bs) (h' : Tiles e e' bs') : Tiles a e' (bs ++ bs') := by
  induction h with
  | nil a => exact h'
  | cons hna _ ih => exact .cons hna (ih h')

/-- A tiling ends no earlier than it starts. -/
theorem Tiles.le (h : Tiles a e bs) : a ≤ e := by
  induction h with
  | nil a => exact Nat.le_refl a
  | cons hna _ ih => exact (Nat.le_add_right _ _).trans ih

/-- A tiling consists of blocks. -/
theorem Tiles.isBlock (h : Tiles a e bs) : ∀ na ∈ bs, IsBlock na := by
  induction h with
  | nil a => simp
  | cons hna _ ih => exact List.forall_mem_cons.mpr ⟨hna, ih⟩

/-- The addresses of the blocks. -/
theorem Tiles.mem_iff (h : Tiles a e bs) :
    (∃ na ∈ bs, x ∈ hosts na) ↔ a ≤ x.toNat ∧ x.toNat < e := by
  induction h with
  | nil a =>
      simp only [List.not_mem_nil, false_and, exists_false, false_iff]
      omega
  | @cons e na bs hna hrest ih =>
      have hpos := Nat.two_pow_pos (32 - na.pfx)
      have hle := hrest.le
      rw [List.exists_mem_cons_iff, ih, mem_hosts_iff_lt hna]
      omega

/-- In a tiling each block lies behind those before it. -/
theorem Tiles.pairwise (h : Tiles a e bs) : bs.Pairwise Apart := by
  induction h with
  | nil a => exact List.Pairwise.nil
  | @cons e na bs hna hrest ih =>
      refine List.Pairwise.cons (fun nb hnb => ?_) ih
      exact (hrest.mem_iff.mp ⟨nb, hnb, (hrest.isBlock nb hnb).2⟩).1

end Tiles

/-- The printed blocks tile the range. -/
theorem Splits.tiles (h : Splits addr pfx lo hi bs calls) : Tiles lo.toNat (hi.toNat + 1) bs := by
  induction h with
  | @whole addr pfx h =>
      refine .cons h.isBlock ?_
      have hend := h.aligned.toNat_broadcast h.pfx_le
      have hpos := Nat.two_pow_pos (32 - pfx)
      rw [hend, Nat.sub_add_cancel (by omega)]
      exact .nil _
  | lower _ _ _ _ ih => exact ih
  | upper _ _ _ _ ih => exact ih
  | both h hpfx _ _ _ _ _ ihlower ihupper =>
      obtain ⟨hupper, hlowerEnd, -, -⟩ := h.aligned.halves hpfx
      rw [hlowerEnd, ← hupper] at ihlower
      exact ihlower.append ihupper

/-! ### No block can be larger -/

/-- The largest blocks of the part of a range in one half are largest in the range: a block
that crosses into the other half would be the whole block. -/
theorem isLargest_of_half {half : NetworkAddr} {lo' hi' : InAddr} {A : Set InAddr}
    (h : Within addr pfx lo hi) (hpart : ¬ (lo = addr ∧ hi = broadcast addr pfx))
    (hhalf : IsBlock half) (hpfx : half.pfx = pfx + 1) (hsub : hosts half ⊆ hosts ⟨addr, pfx⟩)
    (hmem : ∀ y, lo' ≤ y ∧ y ≤ hi' ↔ y ∈ hosts half ∧ lo ≤ y ∧ y ≤ hi)
    (hA : IsLargest blocks (addresses lo' hi') A) : IsLargest blocks (addresses lo hi) A := by
  refine hA.of_part (fun y hy => ((hmem y).mp hy).2) (nonempty_of_mem_blocks A hA.prop.1) ?_
  rintro B ⟨nb, hnb, rfl⟩ hB y hyB hy y' hyB'
  have hyhalf := ((hmem y).mp hy).1
  refine (hmem y').mpr ⟨?_, hB hyB'⟩
  rcases Nat.lt_or_ge nb.pfx half.pfx with hlt | hge
  · -- the block contains the whole of `addr`, which is not inside the range
    have hall := hosts_subset h.isBlock hnb (by rw [hpfx] at hlt; exact Nat.le_of_lt_succ hlt)
      (hsub hyhalf) hyB
    have hfirst := (hB (hall (h.mem_hosts.mpr ⟨Nat.le_refl _, h.addr_le_broadcast⟩))).1
    have hlast := (hB (hall (h.mem_hosts.mpr ⟨h.addr_le_broadcast, Nat.le_refl _⟩))).2
    exact absurd ⟨BitVec.le_antisymm hfirst h.addr_le,
      BitVec.le_antisymm h.le_broadcast hlast⟩ hpart
  · exact hosts_subset hnb hhalf hge hyB hyhalf hyB'

/-- No block inside the range is larger than the printed block that it meets. -/
theorem Splits.isLargest (h : Splits addr pfx lo hi bs calls) :
    ∀ na ∈ bs, IsLargest blocks (addresses lo hi) (hosts na) := by
  induction h with
  | @whole addr pfx h =>
      intro na hna
      obtain rfl := List.mem_singleton.mp hna
      have hset : hosts ⟨addr, pfx⟩ = addresses addr (broadcast addr pfx) :=
        Set.ext fun y => mem_hosts_iff_le h.isBlock
      refine ⟨⟨⟨_, h.isBlock, rfl⟩, hset.le⟩, ?_⟩
      rintro B ⟨-, hB⟩ -
      exact hB.trans hset.ge
  | lower _ _ _ _ ih => exact ih
  | upper _ _ _ _ ih => exact ih
  | both h hpfx hpart hlo hhi hlower hupper ihlower ihupper =>
      obtain ⟨heq, hlowerEnd, hupperEnd, hend⟩ := h.aligned.halves hpfx
      rw [BitVec.lt_def] at hlo
      rw [BitVec.le_def] at hhi
      have hlo' := BitVec.le_def.mp h.addr_le
      have hhi' := BitVec.le_def.mp h.le_broadcast
      intro na hna
      -- a block that reached over the middle would be the whole block, which the range is not
      rcases List.mem_append.mp hna with hna | hna
      · refine isLargest_of_half h hpart hlower.within.isBlock rfl ?_ ?_ (ihlower na hna)
        · intro y hy
          have hy' := hlower.within.mem_hosts.mp hy
          exact h.mem_hosts.mpr (by omega)
        · intro y
          rw [hlower.within.mem_hosts]
          simp only [BitVec.le_def]
          omega
      · refine isLargest_of_half h hpart hupper.within.isBlock rfl ?_ ?_ (ihupper na hna)
        · intro y hy
          have hy' := hupper.within.mem_hosts.mp hy
          exact h.mem_hosts.mpr (by omega)
        · intro y
          rw [hupper.within.mem_hosts]
          simp only [BitVec.le_def]
          omega

/-! ### How many blocks and calls -/

/-- A range with an end in common with the block takes one block for each host bit at most,
and any other range two for each host bit below the first split. -/
theorem Splits.bounds (h : Splits addr pfx lo hi bs calls) :
    (lo = addr → hi = broadcast addr pfx → bs.length = 1 ∧ calls = 1) ∧
    (lo = addr ∨ hi = broadcast addr pfx →
      bs.length ≤ max 1 (32 - pfx) ∧ calls ≤ max 1 (2 * (32 - pfx))) ∧
    bs.length ≤ max 1 (2 * (32 - pfx) - 2) ∧
    calls ≤ max (33 - pfx) (4 * (32 - pfx) - 3) := by
  induction h with
  | whole h =>
      refine ⟨fun _ _ => ⟨rfl, rfl⟩, fun _ => ⟨Nat.le_max_left _ _, Nat.le_max_left _ _⟩,
        Nat.le_max_left _ _, ?_⟩
      have hpfx := h.pfx_le
      omega
  | lower h hpfx hhi _ ih =>
      have hne := h.ne_broadcast hpfx hhi
      refine ⟨fun _ hend => absurd hend hne, ?_, by omega, by omega⟩
      rintro (hfirst | hend)
      · have hone := ih.2.1 (.inl hfirst)
        omega
      · exact absurd hend hne
  | upper h hpfx hlo _ ih =>
      have hne := h.ne_addr hpfx hlo
      refine ⟨fun hfirst => absurd hfirst hne, ?_, by omega, by omega⟩
      rintro (hfirst | hend)
      · exact absurd hfirst hne
      · have hone := ih.2.1 (.inr (hend.trans (h.broadcast_upperHalf hpfx).symm))
        omega
  | both h hpfx hpart hlo hhi hlower hupper ihlower ihupper =>
      have hsucc := h.pfx_succ_lt hpfx hpart hlo hhi
      -- each half has an end in common with its part of the range
      have hlowerOne := ihlower.2.1 (.inr rfl)
      have hupperOne := ihupper.2.1 (.inl rfl)
      rw [List.length_append]
      refine ⟨fun hfirst hend => absurd ⟨hfirst, hend⟩ hpart, ?_, by omega, by omega⟩
      rintro (hfirst | hend)
      · have hwhole := ihlower.1 hfirst rfl
        omega
      · have hwhole := ihupper.1 rfl (hend.trans (h.broadcast_upperHalf hpfx).symm)
        omega

/-! ### Ranges that end before they start -/

/-- The halves are followed down to the last address of the range, and then the prefix is too
long. -/
theorem splitRange_reversed {addr lo hi : InAddr} {pfx : Nat} (hpfx : pfx ≤ 32)
    (haligned : Aligned addr pfx) (haddr : addr ≤ hi) (hhi : hi ≤ broadcast addr pfx)
    (hreversed : hi < lo) :
    splitRange addr pfx lo hi = ⟨[], 34 - pfx, some (.invalidMask 33)⟩ := by
  rw [BitVec.le_def] at haddr hhi
  rw [BitVec.lt_def] at hreversed
  have hrange : ¬ (lo < addr ∨ broadcast addr pfx < hi) := by
    simp only [BitVec.lt_def]
    omega
  have hwhole : ¬ (lo = addr ∧ hi = broadcast addr pfx) := by
    rintro ⟨rfl, -⟩
    omega
  rw [splitRange, dif_neg (by omega)]
  simp only [if_neg hrange, if_neg hwhole]
  rcases Nat.lt_or_ge pfx 32 with hlt | hge
  · obtain ⟨hupper, hlowerEnd, hupperEnd, hend⟩ := haligned.halves hlt
    have hsucc : pfx + 1 ≤ 32 := hlt
    have hcalls : 34 - pfx = 34 - (pfx + 1) + 1 := by omega
    rw [hcalls]
    -- With `hi` below `lo` no range is cut in two, so one half is followed at each prefix.
    by_cases hhalf : hi < upperHalf addr pfx
    · have hlast := BitVec.lt_def.mp hhalf
      rw [if_pos hhalf, splitRange_reversed hsucc haligned.lower
        (by rw [BitVec.le_def]; omega) (by rw [BitVec.le_def]; omega)
        (by rw [BitVec.lt_def]; omega)]
      rfl
    · have hlast := BitVec.le_def.mp (BitVec.not_lt.mp hhalf)
      have hlo : upperHalf addr pfx ≤ lo := by
        rw [BitVec.le_def]
        omega
      have hlast' : hi ≤ broadcast (upperHalf addr pfx) (pfx + 1) := by
        rw [BitVec.le_def]
        omega
      rw [if_neg hhalf, if_pos hlo, splitRange_reversed hsucc (haligned.upper hlt)
        (BitVec.not_lt.mp hhalf) hlast' (by rw [BitVec.lt_def]; omega)]
      rfl
  · -- whatever the shift by -1 gives, the next call exits
    obtain rfl : pfx = 32 := by omega
    have hexit : ∀ addr', splitRange addr' (32 + 1) lo hi = ⟨[], 1, some (.invalidMask 33)⟩ :=
      fun addr' => by
        rw [splitRange, dif_pos (by omega)]
        rfl
    simp only [hexit]
    split
    · rfl
    · rename_i hhalf
      have hlo : setBit addr (32 + 1) true ≤ lo := by
        rw [BitVec.not_lt, BitVec.le_def] at hhalf
        rw [BitVec.le_def]
        omega
      rw [if_pos hlo]
      rfl
termination_by 33 - pfx

/-! ### The command `-s` -/

/-- Every range lies within the block of all addresses. -/
theorem within_all (h : lo ≤ hi) : Within 0 0 lo hi where
  pfx_le := by omega
  aligned := rfl
  addr_le := Nat.zero_le _
  le := h
  le_broadcast := by
    have hall : (broadcast 0 0).toNat = 4294967295 := by decide
    have hlt := hi.isLt
    rw [BitVec.le_def, hall]
    omega

/-- Disjoint blocks that are largest in a set are not more than any blocks with its
addresses. -/
theorem length_le_of_isLargest {S : Set InAddr} {cover : List NetworkAddr}
    (hisBlock : ∀ na ∈ bs, IsBlock na) (hapart : bs.Pairwise Apart)
    (hlargest : ∀ na ∈ bs, IsLargest blocks S (hosts na)) (hblocks : ∀ na ∈ cover, IsBlock na)
    (hcover : ∀ x, (∃ na ∈ cover, x ∈ hosts na) ↔ x ∈ S) : bs.length ≤ cover.length := by
  have hcovers : Covers blocks S (cover.map hosts) := by
    refine ⟨?_, fun x => ?_⟩
    · intro A hA
      obtain ⟨na, hna, rfl⟩ := List.mem_map.mp hA
      exact ⟨na, hblocks na hna, rfl⟩
    · simp only [List.mem_map, exists_exists_and_eq_and]
      exact (hcover x).symm
  have hlargest' : ∀ A ∈ bs.map hosts, IsLargest blocks S A := by
    intro A hA
    obtain ⟨na, hna, rfl⟩ := List.mem_map.mp hA
    exact hlargest na hna
  have hle := hcovers.length_le laminar_blocks hlargest' nonempty_of_mem_blocks
    (disjoint_of_apart hisBlock hapart)
  rwa [List.length_map, List.length_map] at hle

/-- `-s` prints blocks that lie end to end, from the first address of the range to its last
one, and no list of blocks with the same addresses is shorter. -/
theorem splitBetween_smallest (start stop : Block)
    (h : start.val.addr ≤ broadcast stop.val.addr stop.val.pfx) :
    ∃ bs calls, splitBetween start stop = ⟨bs.map blockLine, calls, none⟩ ∧
      Tiles start.val.addr.toNat ((broadcast stop.val.addr stop.val.pfx).toNat + 1) bs ∧
      ∀ cover : List NetworkAddr, (∀ na ∈ cover, IsBlock na) →
        (∀ x, (∃ na ∈ cover, x ∈ hosts na) ↔ ∃ na ∈ bs, x ∈ hosts na) →
        bs.length ≤ cover.length := by
  obtain ⟨bs, calls, heq, hsplits⟩ := splits_splitRange (within_all h)
  refine ⟨bs, calls, ?_, hsplits.tiles, fun cover hblocks hcover => ?_⟩
  · rw [splitBetween, start.property.2, heq]
  · refine length_le_of_isLargest hsplits.tiles.isBlock hsplits.tiles.pairwise
      hsplits.isLargest hblocks fun x => ?_
    rw [hcover x, hsplits.tiles.mem_iff, Nat.lt_succ_iff]
    rfl

/-- From 10.0.0.3 to the end of 10.0.0.8/30. -/
theorem splitBetween_smallest_private :
    ∃ bs calls, splitBetween ⟨⟨0x0A000003, 32⟩, by decide⟩ ⟨⟨0x0A000008, 30⟩, by decide⟩ =
        ⟨bs.map blockLine, calls, none⟩ ∧
      Tiles 0x0A000003 0x0A00000C bs ∧
      ∀ cover : List NetworkAddr, (∀ na ∈ cover, IsBlock na) →
        (∀ x, (∃ na ∈ cover, x ∈ hosts na) ↔ ∃ na ∈ bs, x ∈ hosts na) →
        bs.length ≤ cover.length := by
  obtain ⟨bs, calls, heq, htiles, hsmallest⟩ :=
    splitBetween_smallest ⟨⟨0x0A000003, 32⟩, by decide⟩ ⟨⟨0x0A000008, 30⟩, by decide⟩ (by decide)
  exact ⟨bs, calls, heq, htiles, hsmallest⟩

/-- The worst case that the source names: 62 blocks and 125 calls. It is met by the range
from 0.0.0.1 to 255.255.255.254. A range that ends before it starts prints nothing and exits
at the first prefix that is too long. -/
theorem splitRange_worst (lo hi : InAddr) :
    (lo ≤ hi →
      (splitRange 0 0 lo hi).printed.length ≤ 62 ∧ (splitRange 0 0 lo hi).calls ≤ 125) ∧
    (hi < lo → splitRange 0 0 lo hi = ⟨[], 34, some (.invalidMask 33)⟩) ∧
    (splitRange 0 0 1 0xFFFFFFFE).printed.length = 62 ∧
    (splitRange 0 0 1 0xFFFFFFFE).calls = 125 := by
  refine ⟨fun h => ?_, fun h => ?_, ?_, ?_⟩
  · obtain ⟨bs, calls, heq, hsplits⟩ := splits_splitRange (within_all h)
    have hbounds := hsplits.bounds.2.2
    rw [heq, List.length_map]
    exact ⟨by omega, show calls ≤ 125 by omega⟩
  · have hall := within_all (BitVec.le_refl hi)
    exact splitRange_reversed (Nat.zero_le 32) hall.aligned hall.addr_le hall.le_broadcast h
  · decide +kernel
  · decide +kernel

end Split

end MyTestFiles.Proofs.IpRange
