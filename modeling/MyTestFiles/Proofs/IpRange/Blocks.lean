import MyTestFiles.IpRange.IpRange
import MyTestFiles.Lib.Laminar

/-!
# `MyTestFiles.Proofs.IpRange.Blocks`: network blocks are blocks of numbers

With `k = 32 - pfx` host bits, `network` rounds an address down to a multiple of `2 ^ k` and
`broadcast` adds `2 ^ k - 1` to a multiple. So the addresses of a block are a `dyadic` block
of numbers (`mem_hosts_iff`), and the blocks are a laminar family (`laminar_blocks`).

The source works on masks, and the results of the other modules are about numbers. This module is
the place where the two meet, and it has all the arithmetic of masks.

* `network` clears host bits and `broadcast` sets them. On numbers these are the lower and the
  upper end of the block around the address.
* A block of prefix `pfx` is two blocks of prefix `pfx + 1`, the lower half and the upper half
  (`Aligned.lower`, `Aligned.upper`).
* Two blocks are disjoint or one is inside the other. That is what `Laminar` says, and the
  minimality of a list of blocks follows from it alone.
-/

set_option autoImplicit false

namespace MyTestFiles.Proofs.IpRange

open MyTestFiles.Lib
open MyTestFiles.IpRange

section Words
variable {addr x : InAddr} {pfx k : Nat}

/-- The bit of a prefix is the size of its blocks. -/
theorem toNat_bit (hpos : 0 < pfx) (hpfx : pfx ≤ 32) : (bit pfx).toNat = 2 ^ (32 - pfx) := by
  have hcount : (64 - pfx) % 32 = 32 - pfx := by omega
  have hlt : 2 ^ (32 - pfx) < 2 ^ 32 := Nat.pow_lt_pow_right (by omega) (by omega)
  rw [bit, hcount, BitVec.toNat_shiftLeft]
  show 1 <<< (32 - pfx) % 2 ^ 32 = _
  rw [Nat.one_shiftLeft, Nat.mod_eq_of_lt hlt]

/-- The host bits. -/
theorem toNat_not_netmask (hpfx : pfx ≤ 32) : (~~~(netmask pfx)).toNat = 2 ^ (32 - pfx) - 1 := by
  rcases Nat.eq_zero_or_pos pfx with rfl | hpos
  · decide
  · have hbit := toNat_bit hpos hpfx
    have hlow : 1 ≤ 2 ^ (32 - pfx) := Nat.one_le_two_pow
    have hle : (1 : InAddr) ≤ bit pfx := by
      rw [BitVec.le_def, hbit]
      exact hlow
    rw [netmask, if_neg (by omega), BitVec.not_not, BitVec.toNat_sub_of_le hle, hbit]
    rfl

/-- The host part of an address is its remainder by the size of a block. -/
theorem toNat_and_not_netmask (hpfx : pfx ≤ 32) (addr : InAddr) :
    (addr &&& ~~~(netmask pfx)).toNat = addr.toNat % 2 ^ (32 - pfx) := by
  rw [BitVec.toNat_and, toNat_not_netmask hpfx, Nat.and_two_pow_sub_one_eq_mod]

/-- The network part and a host part have no bit in common. -/
theorem network_and_host (addr x : InAddr) (pfx : Nat) :
    network addr pfx &&& (x &&& ~~~(netmask pfx)) = 0 := by
  ext i hi
  simp only [network, BitVec.getElem_and, BitVec.getElem_not]
  cases (netmask pfx)[i] <;> simp

/-- A word is its network part and its host part. -/
theorem network_add_host (addr : InAddr) (pfx : Nat) :
    network addr pfx + (addr &&& ~~~(netmask pfx)) = addr := by
  rw [BitVec.add_eq_or_of_and_eq_zero _ _ (network_and_host addr addr pfx)]
  ext i hi
  simp only [network, BitVec.getElem_or, BitVec.getElem_and, BitVec.getElem_not]
  cases addr[i] <;> cases (netmask pfx)[i] <;> rfl

/-- The network of an address is the address rounded down to a multiple of the size. -/
theorem toNat_network (hpfx : pfx ≤ 32) (addr : InAddr) :
    (network addr pfx).toNat = addr.toNat / 2 ^ (32 - pfx) * 2 ^ (32 - pfx) := by
  have hsum := congrArg BitVec.toNat (network_add_host addr pfx)
  rw [BitVec.toNat_add_of_and_eq_zero (network_and_host addr addr pfx),
    toNat_and_not_netmask hpfx] at hsum
  have hdiv := Nat.div_add_mod' addr.toNat (2 ^ (32 - pfx))
  omega

/-! ### Aligned addresses -/

/-- The address is the first one of a block. -/
def Aligned (addr : InAddr) (pfx : Nat) : Prop := addr.toNat % 2 ^ (32 - pfx) = 0

/-- An address that is its own network is at the start of a block. -/
theorem aligned_of_network_eq (hpfx : pfx ≤ 32) (h : network addr pfx = addr) :
    Aligned addr pfx := by
  rw [Aligned, ← h, toNat_network hpfx]
  exact Nat.mul_mod_left _ _

/-- An address at the start of a block is its own network. -/
theorem Aligned.network_eq (h : Aligned addr pfx) (hpfx : pfx ≤ 32) : network addr pfx = addr := by
  refine BitVec.eq_of_toNat_eq ?_
  rw [toNat_network hpfx]
  exact Nat.div_mul_cancel (Nat.dvd_of_mod_eq_zero h)

/-- The broadcast address of a block is its last address. -/
theorem Aligned.toNat_broadcast (h : Aligned addr pfx) (hpfx : pfx ≤ 32) :
    (broadcast addr pfx).toNat = addr.toNat + 2 ^ (32 - pfx) - 1 := by
  have hdisjoint := network_and_host addr (BitVec.allOnes 32) pfx
  rw [h.network_eq hpfx, BitVec.allOnes_and] at hdisjoint
  rw [broadcast, ← BitVec.add_eq_or_of_and_eq_zero _ _ hdisjoint,
    BitVec.toNat_add_of_and_eq_zero hdisjoint, toNat_not_netmask hpfx]
  have hpos : 0 < 2 ^ (32 - pfx) := Nat.two_pow_pos _
  omega

/-- The first address of the upper half. -/
theorem Aligned.toNat_setBit (h : Aligned addr pfx) (hpfx : pfx < 32) :
    (setBit addr (pfx + 1) true).toNat = addr.toNat + 2 ^ (32 - (pfx + 1)) := by
  have hbit := toNat_bit (Nat.succ_pos pfx) hpfx
  have hhalf : addr.toNat / 2 ^ (32 - (pfx + 1)) % 2 = 0 := by
    have hsplit : 32 - pfx = 32 - (pfx + 1) + 1 := by omega
    rw [Aligned, hsplit, Nat.pow_succ] at h
    obtain ⟨q, hq⟩ := Nat.dvd_of_mod_eq_zero h
    rw [hq, Nat.mul_assoc, Nat.mul_div_cancel_left _ (Nat.two_pow_pos _)]
    exact Nat.mul_mod_right 2 q
  have hdisjoint : addr &&& bit (pfx + 1) = 0 := by
    refine BitVec.eq_of_toNat_eq ?_
    rw [BitVec.toNat_and, hbit, Nat.and_two_pow, Nat.testBit_eq_decide_div_mod_eq, hhalf]
    simp
  rw [setBit, if_pos rfl, ← BitVec.add_eq_or_of_and_eq_zero _ _ hdisjoint,
    BitVec.toNat_add_of_and_eq_zero hdisjoint, hbit]

/-- The lower half of a block starts where the block does. -/
theorem Aligned.lower (h : Aligned addr pfx) : Aligned addr (pfx + 1) :=
  Nat.mod_eq_zero_of_dvd
    ((Nat.pow_dvd_pow 2 (by omega)).trans (Nat.dvd_of_mod_eq_zero h))

/-- The upper half of a block starts where the next bit of its start is set. -/
theorem Aligned.upper (h : Aligned addr pfx) (hpfx : pfx < 32) :
    Aligned (setBit addr (pfx + 1) true) (pfx + 1) := by
  rw [Aligned, h.toNat_setBit hpfx, Nat.add_mod_right]
  exact h.lower

/-! ### The addresses of a block -/

/-- The addresses with the network part of the block. -/
def hosts (na : NetworkAddr) : Set InAddr := {x | network x na.pfx = na.addr}

/-- The addresses of a range. -/
def addresses (lo hi : InAddr) : Set InAddr := {x | lo ≤ x ∧ x ≤ hi}

/-- A block that `str_to_netaddr` can make. -/
def IsBlock (na : NetworkAddr) : Prop := na.pfx ≤ 32 ∧ network na.addr na.pfx = na.addr

/-- The addresses of a block are a dyadic block of numbers. -/
theorem mem_hosts_iff {na : NetworkAddr} (h : IsBlock na) :
    x ∈ hosts na ↔ x.toNat ∈ dyadic (32 - na.pfx) (na.addr.toNat / 2 ^ (32 - na.pfx)) := by
  have hpos : 0 < 2 ^ (32 - na.pfx) := Nat.two_pow_pos _
  show network x na.pfx = na.addr ↔ x.toNat / _ = na.addr.toNat / _
  rw [← BitVec.toNat_inj, toNat_network h.1]
  conv_lhs => rw [← h.2, toNat_network h.1]
  exact Nat.mul_left_inj (Nat.ne_of_gt hpos)

/-- The addresses of a block are the numbers from its start on, as many as its size. -/
theorem mem_hosts_iff_lt {na : NetworkAddr} (h : IsBlock na) :
    x ∈ hosts na ↔ na.addr.toNat ≤ x.toNat ∧ x.toNat < na.addr.toNat + 2 ^ (32 - na.pfx) := by
  have haligned := aligned_of_network_eq h.1 h.2
  have hmul := Nat.div_mul_cancel (Nat.dvd_of_mod_eq_zero haligned)
  rw [mem_hosts_iff h, mem_dyadic_iff, hmul]

/-- The addresses from the first one up to the broadcast address. -/
theorem mem_hosts_iff_le {na : NetworkAddr} (h : IsBlock na) :
    x ∈ hosts na ↔ na.addr ≤ x ∧ x ≤ broadcast na.addr na.pfx := by
  have hend := (aligned_of_network_eq h.1 h.2).toNat_broadcast h.1
  have hpos : 0 < 2 ^ (32 - na.pfx) := Nat.two_pow_pos _
  rw [mem_hosts_iff_lt h, BitVec.le_def, BitVec.le_def, hend]
  omega

/-- Of two blocks with a common address, the one with the longer prefix is inside. -/
theorem hosts_subset {na nb : NetworkAddr} (hna : IsBlock na) (hnb : IsBlock nb)
    (hpfx : nb.pfx ≤ na.pfx) (hx : x ∈ hosts na) (hx' : x ∈ hosts nb) : hosts na ⊆ hosts nb := by
  intro y hy
  rw [mem_hosts_iff hna] at hx hy
  rw [mem_hosts_iff hnb] at hx' ⊢
  exact dyadic_subset_of_mem (Nat.sub_le_sub_left hpfx 32) hx hx' hy

/-- The sets of addresses of all blocks. -/
def blocks : Set (Set InAddr) := {A | ∃ na, IsBlock na ∧ A = hosts na}

/-- No block is empty. -/
theorem nonempty_of_mem_blocks : ∀ A ∈ blocks, A.Nonempty := by
  rintro A ⟨na, hna, rfl⟩
  exact ⟨na.addr, hna.2⟩

/-- Two blocks of addresses are disjoint, or one is inside the other. -/
theorem laminar_blocks : Laminar blocks := by
  rintro A ⟨na, hna, rfl⟩ B ⟨nb, hnb, rfl⟩
  have hpre : ∀ nc, IsBlock nc → hosts nc =
      Set.preimage BitVec.toNat (dyadic (32 - nc.pfx) (nc.addr.toNat / 2 ^ (32 - nc.pfx))) :=
    fun nc hnc => Set.ext fun x => mem_hosts_iff hnc
  rw [hpre na hna, hpre nb hnb]
  rcases dyadic_nested_or_disjoint (32 - na.pfx) (na.addr.toNat / 2 ^ (32 - na.pfx))
    (32 - nb.pfx) (nb.addr.toNat / 2 ^ (32 - nb.pfx)) with h | h | h
  · exact .inl (Set.preimage_mono h)
  · exact .inr (.inl (Set.preimage_mono h))
  · exact .inr (.inr (h.preimage _))

end Words

end MyTestFiles.Proofs.IpRange
