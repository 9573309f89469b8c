import MyTestFiles.Proofs.Bitlist.Contiguous

/-!
# `MyTestFiles.Proofs.Bitlist.Copies`: copies of a block between two lists

A position is absolute, and the words of a list start at its own first bit. `CopyLaws` is
what the two copies owe: each copies the block bit by bit or leaves `to` alone, and a block
that was copied in can be copied back.

`bitlist_copy_from_position` keeps its law always. `bitlist_copy_in_position` copies to
words of `to`, but takes the first bit of `from` when it checks that the block starts with a
word: a block that starts with a word of `from` only lands in the wrong place (`Misplaced`).
`copies_iff` says that nothing else goes wrong.

A copy is refused where its block is not inside both lists or does not start with a word. It then
leaves `to` alone, so each law has one lemma for the calls that are refused and one for all calls.

* `copyIn_written` and `copyFrom_written` are the copies themselves, for blocks that start with a
  word of the target, and `copies_roundTrip` puts one after the other.
* `not_roundTrip_of_misplaced` shows that a misplaced block is lost: the copy back refuses its
  start, so nothing comes back.
-/

set_option autoImplicit false

namespace MyTestFiles.Proofs.Bitlist

open MyTestFiles.Lib
open MyTestFiles.Bitlist

/-- The checks of `bitlist_copy_from_position`. -/
def CopyFromAccepted (source target : BitlistT) (bit bits : Int) : Prop :=
  bitlistValidrange source bit bits = true ∧
    bitlistValidbit target (int32 (bits - 1)) = true ∧
    (bit - source.state.baseBit) % 32 = 0 ∧ bits % 32 = 0

/-- The checks of `bitlist_copy_in_position`. -/
def CopyInAccepted (source target : BitlistT) (bit bits : Int) : Prop :=
  bitlistValidbit source (int32 (bits - 1)) = true ∧
    bitlistValidrange target bit bits = true ∧
    (bit - source.state.baseBit) % 32 = 0 ∧ bits % 32 = 0

/-- The copy goes ahead, and the block does not start with a word of `to`. -/
def Misplaced (source target : BitlistT) (bit bits : Int) : Prop :=
  CopyInAccepted source target bit bits ∧ (bit - target.state.baseBit) % 32 ≠ 0

/-- What the copies from `source` to `target` owe. The last part is about a copy back to any
list with room for the block. -/
structure CopyLaws (source target : BitlistT) (bit bits : Int) : Prop where
  copyIn : BlockLaw (fun i => bitlistTest source (int32 (source.state.baseBit + i)))
    target bit bits (bitlistCopyInPosition source target bit bits)
  copyFrom : BlockLaw (fun i => bitlistTest source (int32 (bit + i)))
    target target.state.baseBit bits (bitlistCopyFromPosition source target bit bits)
  roundTrip : CopyInAccepted source target bit bits →
    ∀ target', bitlistCopyInPosition source target bit bits = some target' →
    ∀ (l c : Nat) (back : BitlistT), HasGeometry l c back → bits ≤ l →
    ∃ back', bitlistCopyFromPosition target' back bit bits = some back' ∧
      ∀ i, 0 ≤ i → i < bits → bitlistTest back' (int32 (back.state.baseBit + i))
        = bitlistTest source (int32 (source.state.baseBit + i))

/-! ### What the calls do -/

section Calls
variable {m a n b : Nat} {source target : BitlistT} {bit bits : Int}

/-- The copied words, with enough room on both sides. -/
theorem memcpyElems_eq {words block : List Elem} {i j k : Nat} (hi : i + k ≤ words.length)
    (hj : j + k ≤ block.length) :
    memcpyElems words i block j k = some (splice words i ((block.drop j).take k)) := by
  rw [memcpyElems, if_neg (by omega), if_pos (by simp only [Int.toNat_natCast]; omega)]
  simp only [Int.toNat_natCast]

/-- The test for the start of a word. -/
theorem uint32_emod_eq_zero_iff {x : Int} : uint32 x % 32 = 0 ↔ x % 32 = 0 := by
  simp only [uint32]
  omega

/-- The range check of a valid bit, as bounds. -/
theorem HasGeometry.validbit_bounds (h : HasGeometry m a source) {p : Int}
    (hp : bitlistValidbit source (int32 p) = true) : 0 ≤ int32 p ∧ int32 p < m := by
  rwa [bitlistValidbit_iff (le_int32 p) (int32_lt p), h.maxBits] at hp

/-- A length between two valid ends that one more range check accepts is a number of words,
and fits into both lists. -/
theorem exists_words (hs : HasGeometry m a source) {o last : Nat}
    (hdiff : int32 bits = (last : Int) + 1 - o)
    (hvalid : bitlistValidbit source (int32 (bits - 1)) = true) (hwhole : bits % 32 = 0) :
    ∃ k : Nat, 0 < k ∧ int32 bits = (32 * k : Nat) ∧ 32 * k ≤ m ∧ o + 32 * k = last + 1 ∧
      bitsToElems bits = k := by
  have hmax := hs.le_max
  obtain ⟨hlow, hlt⟩ := hs.validbit_bounds hvalid
  have hpos : 0 < int32 bits ∧ int32 bits = int32 (bits - 1) + 1 := by
    simp only [int32] at hlow hlt ⊢
    omega
  have hword : int32 bits % 32 = 0 := by
    simp only [int32]
    omega
  refine ⟨(int32 bits / 32).toNat, by omega, by omega, by omega, by omega, ?_⟩
  rw [bitsToElems_of_whole hwhole, if_neg (by omega)]
  omega

/-- `bitlist_copy_in_position` past its checks: the first words of `from` replace those from
the word on in which the block starts. -/
theorem copyIn_of_accepted (hs : HasGeometry m a source) (ht : HasGeometry n b target)
    (hok : CopyInAccepted source target bit bits) :
    ∃ o k : Nat, 0 < k ∧ int32 (bit - b) = o ∧ int32 bits = (32 * k : Nat) ∧
      o + 32 * k ≤ n ∧ 32 * k ≤ m ∧
      bitlistCopyInPosition source target bit bits
        = some { target with bits := splice target.bits (o / 32) (source.bits.take k) } := by
  obtain ⟨hvalid, hrange, haligned, hwhole⟩ := hok
  obtain ⟨o, last, ho, hstart, holt, hlastlt, hdiff⟩ := ht.exists_ends hrange
  obtain ⟨k, hpos, hk, hkm, hend, hcount⟩ := exists_words hs hdiff hvalid hwhole
  have hslen := hs.length
  have htlen := ht.length
  have hcopy : memcpyElems target.bits (o / 32 : Nat) source.bits (0 : Nat) k
      = some (splice target.bits (o / 32) (source.bits.take k)) :=
    memcpyElems_eq (by omega) (by omega)
  refine ⟨o, k, hpos, ho, hk, by omega, hkm, ?_⟩
  unfold bitlistCopyInPosition
  rw [if_neg (by simpa using hvalid), if_neg (by simpa using hrange),
    if_neg (not_not.mpr (uint32_emod_eq_zero_iff.mpr haligned)),
    if_neg (not_not.mpr (tmod_bitsPerElem_eq_zero_iff.mpr hwhole)), hstart, bitToElem_natCast,
    hcount]
  exact bind_of_some hcopy

/-- A refused copy leaves the target as it is. -/
theorem copyIn_of_refused (hno : ¬CopyInAccepted source target bit bits) :
    bitlistCopyInPosition source target bit bits = some target := by
  unfold bitlistCopyInPosition
  split
  · rfl
  · split
    · rfl
    · split
      · rfl
      · split
        · rfl
        · rename_i hvalid hrange haligned hwhole
          -- all four checks passed
          exact absurd ⟨by simpa using hvalid, by simpa using hrange,
            uint32_emod_eq_zero_iff.mp (not_not.mp haligned),
            tmod_bitsPerElem_eq_zero_iff.mp (not_not.mp hwhole)⟩ hno

/-- `bitlist_copy_from_position` past its checks: the words of the block replace the first
words of `to`. -/
theorem copyFrom_of_accepted (hs : HasGeometry m a source) (ht : HasGeometry n b target)
    (hok : CopyFromAccepted source target bit bits) :
    ∃ i k : Nat, int32 (bit - a) = (32 * i : Nat) ∧ int32 bits = (32 * k : Nat) ∧
      32 * (i + k) ≤ m ∧ 32 * k ≤ n ∧
      bitlistCopyFromPosition source target bit bits
        = some { target with
            bits := splice target.bits 0 ((source.bits.drop i).take k) } := by
  obtain ⟨hrange, hvalid, haligned, hwhole⟩ := hok
  obtain ⟨o, last, ho, hstart, holt, hlastlt, hdiff⟩ := hs.exists_ends hrange
  obtain ⟨k, hpos, hk, hkn, hend, hcount⟩ := exists_words ht hdiff hvalid hwhole
  have hslen := hs.length
  have htlen := ht.length
  have haligned' := uint32_emod_eq_zero_iff.mpr haligned
  rw [hstart] at haligned'
  have hcopy : memcpyElems target.bits (0 : Nat) source.bits (o / 32 : Nat) k
      = some (splice target.bits 0 ((source.bits.drop (o / 32)).take k)) :=
    memcpyElems_eq (by omega) (by omega)
  refine ⟨o / 32, k, by omega, hk, by omega, hkn, ?_⟩
  -- The four checks of the source, one after the other.
  unfold bitlistCopyFromPosition
  rw [if_neg (by simpa using hrange), if_neg (by simpa using hvalid),
    if_neg (not_not.mpr (uint32_emod_eq_zero_iff.mpr haligned)),
    if_neg (not_not.mpr (tmod_bitsPerElem_eq_zero_iff.mpr hwhole)), hstart, bitToElem_natCast,
    hcount]
  exact bind_of_some hcopy

/-- The same for the copy in the other direction. -/
theorem copyFrom_of_refused (hno : ¬CopyFromAccepted source target bit bits) :
    bitlistCopyFromPosition source target bit bits = some target := by
  unfold bitlistCopyFromPosition
  split
  · rfl
  · split
    · rfl
    · split
      · rfl
      · split
        · rfl
        · rename_i hrange hvalid haligned hwhole
          exact absurd ⟨by simpa using hrange, by simpa using hvalid,
            uint32_emod_eq_zero_iff.mp (not_not.mp haligned),
            tmod_bitsPerElem_eq_zero_iff.mp (not_not.mp hwhole)⟩ hno

end Calls

/-! ### The laws -/

section Laws
variable {m a n b : Nat} {source target : BitlistT} {bit bits : Int}

/-- The bits of a list with a block of words from another one. -/
theorem bitAt_copied {words block : List Elem} {i j k : Nat} (hi : i + k ≤ words.length)
    (hj : j + k ≤ block.length) (o : Nat) :
    bitAt (splice words i ((block.drop j).take k)) o
      = if i ≤ o / 32 ∧ o / 32 < i + k then bitAt block (32 * j + (o - 32 * i))
        else bitAt words o := by
  have hlen : ((block.drop j).take k).length = k := by
    rw [List.length_take, List.length_drop]
    omega
  rw [bitAt_splice (by rwa [hlen]), hlen]
  by_cases hin : i ≤ o / 32 ∧ o / 32 < i + k
  · rw [if_pos hin, if_pos hin, bitAt_take_drop (by omega) (by omega)]
  · rw [if_neg hin, if_neg hin]

/-- A position of a list by its distance from another one. -/
theorem HasGeometry.test_block (h : HasGeometry m a source) {i j : Nat}
    (hi : int32 (bit - a) = i) (hlt : i + j < m) :
    bitlistTest source (int32 (bit + j)) = some (bitAt source.bits (i + j)) := by
  have hmax := h.le_max
  have hoffset : int32 (int32 (bit + j) - a) = (i + j : Nat) := by
    rw [int32_block hi (by omega) (by omega)]
    omega
  exact h.test_of_offset hoffset hlt

/-- A copy in that starts with a word of `to` writes the block. -/
theorem copyIn_written (hs : HasGeometry m a source) (ht : HasGeometry n b target)
    (hbits : int32 bits = bits) (hok : CopyInAccepted source target bit bits)
    (hplaced : (bit - target.state.baseBit) % 32 = 0) :
    ∃ words, words.length = target.bits.length ∧
      bitlistCopyInPosition source target bit bits = some { target with bits := words } ∧
      BlockWritten (fun i => bitlistTest source (int32 (source.state.baseBit + i))) target bit bits
        { target with bits := words } := by
  obtain ⟨o, k, -, ho, hk, hn, hm, hcall⟩ := copyIn_of_accepted hs ht hok
  have hslen := hs.length
  have htlen := ht.length
  have hroom : o / 32 + k ≤ target.bits.length := by omega
  have hlen : (splice target.bits (o / 32) (source.bits.take k)).length = target.bits.length :=
    length_splice (by rw [List.length_take]; omega)
  rw [ht.baseBit] at hplaced
  -- the word that the copy starts at is the word of the block
  have hstart : int32 (bit - b) = (32 * (o / 32) : Nat) := by
    simp only [int32] at ho ⊢
    omega
  have hwords : ∀ o', bitAt (splice target.bits (o / 32) (source.bits.take k)) o'
      = if o / 32 ≤ o' / 32 ∧ o' / 32 < o / 32 + k then bitAt source.bits (o' - 32 * (o / 32))
        else bitAt target.bits o' := by
    intro o'
    have hcopied := bitAt_copied hroom (show 0 + k ≤ source.bits.length by omega) o'
    rwa [List.drop_zero, Nat.mul_zero, Nat.zero_add] at hcopied
  have hvalue : ∀ j < 32 * k, bitlistTest source (int32 (source.state.baseBit + (j : Int)))
      = some (bitAt source.bits j) := by
    intro j hj
    have hbase : int32 ((source.state.baseBit : Int) - a) = (0 : Nat) := by
      rw [hs.baseBit, sub_self]
      rfl
    have htest := hs.test_block (j := j) hbase (by omega)
    rwa [Nat.zero_add] at htest
  exact ⟨_, hlen, hcall, block_written ht hlen hstart (hbits ▸ hk) (by omega) hwords hvalue⟩

/-- A copy from a position writes the block. -/
theorem copyFrom_written (hs : HasGeometry m a source) (ht : HasGeometry n b target)
    (hbits : int32 bits = bits) (hok : CopyFromAccepted source target bit bits) :
    ∃ words, words.length = target.bits.length ∧
      bitlistCopyFromPosition source target bit bits = some { target with bits := words } ∧
      BlockWritten (fun i => bitlistTest source (int32 (bit + i)))
        target target.state.baseBit bits { target with bits := words } := by
  obtain ⟨i, k, hi, hk, hm, hn, hcall⟩ := copyFrom_of_accepted hs ht hok
  have hslen := hs.length
  have htlen := ht.length
  have hroom : i + k ≤ source.bits.length := by omega
  have hlen : (splice target.bits 0 ((source.bits.drop i).take k)).length
      = target.bits.length :=
    length_splice (by rw [List.length_take, List.length_drop]; omega)
  have hstart : int32 ((target.state.baseBit : Int) - b) = (32 * 0 : Nat) := by
    rw [ht.baseBit, sub_self]
    rfl
  -- The copy is by words, and both blocks start at a word.
  have hwords : ∀ o, bitAt (splice target.bits 0 ((source.bits.drop i).take k)) o
      = if 0 ≤ o / 32 ∧ o / 32 < 0 + k then bitAt source.bits (32 * i + (o - 32 * 0))
        else bitAt target.bits o :=
    fun o => bitAt_copied (by omega) hroom o
  have hvalue : ∀ j < 32 * k, bitlistTest source (int32 (bit + (j : Int)))
      = some (bitAt source.bits (32 * i + j)) :=
    fun j hj => hs.test_block hi (by omega)
  exact ⟨_, hlen, hcall, block_written ht hlen hstart (hbits ▸ hk) (by omega) hwords hvalue⟩

/-- `bitlist_copy_in_position` keeps its law where the block is not misplaced. -/
theorem copyIn_law (hs : HasGeometry m a source) (ht : HasGeometry n b target)
    (hbits : int32 bits = bits) (hplaced : ¬Misplaced source target bit bits) :
    BlockLaw (fun i => bitlistTest source (int32 (source.state.baseBit + i))) target bit bits
      (bitlistCopyInPosition source target bit bits) := by
  by_cases hok : CopyInAccepted source target bit bits
  · have hstart : (bit - target.state.baseBit) % 32 = 0 := by
      by_contra hne
      exact hplaced ⟨hok, hne⟩
    obtain ⟨words, hlen, hcall, hwritten⟩ := copyIn_written hs ht hbits hok hstart
    exact ⟨_, hcall, rfl, hlen, Or.inr hwritten⟩
  · exact ⟨target, copyIn_of_refused hok, rfl, rfl, Or.inl rfl⟩

/-- `bitlist_copy_from_position` keeps its law. -/
theorem copyFrom_law (hs : HasGeometry m a source) (ht : HasGeometry n b target)
    (hbits : int32 bits = bits) :
    BlockLaw (fun i => bitlistTest source (int32 (bit + i))) target target.state.baseBit bits
      (bitlistCopyFromPosition source target bit bits) := by
  by_cases hok : CopyFromAccepted source target bit bits
  · obtain ⟨words, hlen, hcall, hwritten⟩ := copyFrom_written hs ht hbits hok
    exact ⟨_, hcall, rfl, hlen, Or.inr hwritten⟩
  · exact ⟨target, copyFrom_of_refused hok, rfl, rfl, Or.inl rfl⟩

/-- The block comes back from where it was copied in. -/
theorem copies_roundTrip (hs : HasGeometry m a source) (ht : HasGeometry n b target)
    (hbits : int32 bits = bits) (hplaced : ¬Misplaced source target bit bits)
    (hok : CopyInAccepted source target bit bits) {target' : BitlistT}
    (hcopy : bitlistCopyInPosition source target bit bits = some target') {l c : Nat}
    {back : BitlistT} (hback : HasGeometry l c back) (hroom : bits ≤ l) :
    ∃ back', bitlistCopyFromPosition target' back bit bits = some back' ∧
      ∀ i, 0 ≤ i → i < bits → bitlistTest back' (int32 (back.state.baseBit + i))
        = bitlistTest source (int32 (source.state.baseBit + i)) := by
  have hstart : (bit - target.state.baseBit) % 32 = 0 := by
    by_contra hne
    exact hplaced ⟨hok, hne⟩
  obtain ⟨words, hlen, hcall, hwritten⟩ := copyIn_written hs ht hbits hok hstart
  rw [hcall, Option.some.injEq] at hcopy
  subst hcopy
  obtain ⟨hvalid, hrange, -, hwhole⟩ := hok
  have hmax := hs.le_max
  obtain ⟨hlow, hhigh⟩ := hs.validbit_bounds hvalid
  have hfits : bitlistValidbit back (int32 (bits - 1)) = true := by
    rw [bitlistValidbit_iff (le_int32 _) (int32_lt _), hback.maxBits]
    simp only [int32] at hlow hhigh hbits ⊢
    omega
  -- the block lies on whole words of `to`, so that it may be copied from there
  have haccept : CopyFromAccepted { target with bits := words } back bit bits :=
    ⟨hrange, hfits, hstart, hwhole⟩
  obtain ⟨words', -, hcall', hwritten'⟩ :=
    copyFrom_written (ht.withBits hlen) hback hbits haccept
  refine ⟨_, hcall', ?_⟩
  intro i hi hlt
  exact (hwritten'.1 i hi hlt).trans (hwritten.1 i hi hlt)

/-- A list whose first bit is not that of `source`. -/
theorem exists_other_list {k : Nat} (hk : 0 < k) (hmax : 32 * k ≤ 2147483616) (v : Bool) :
    ∃ back, HasGeometry (32 * k) 0 back ∧ bitlistTest back 0 = some v := by
  have hwords : (32 * k + 31) / 32 = k := by omega
  have hbit : ∃ x : Elem, x.getLsbD 0 = v := by
    cases v with
    | false => exact ⟨0, BitVec.getLsbD_zero⟩
    | true => exact ⟨1, rfl⟩
  obtain ⟨x, hx⟩ := hbit
  have hgeo : HasGeometry (32 * k) 0 ⟨⟨k, 32 * k, 0, 0, 0⟩, List.replicate k x⟩ :=
    ⟨hwords.symm, rfl, rfl, by rw [hwords, List.length_replicate], hmax⟩
  have hzero : int32 ((0 : Int) - (0 : Nat)) = (0 : Nat) := rfl
  refine ⟨_, hgeo, ?_⟩
  rw [hgeo.test_of_offset hzero (by omega), bitAt_replicate (by omega)]
  exact congrArg some hx

/-- A misplaced block does not come back: the second copy refuses its start. -/
theorem not_roundTrip_of_misplaced (hs : HasGeometry m a source) (ht : HasGeometry n b target)
    (hbits : int32 bits = bits) (hmis : Misplaced source target bit bits) :
    ¬CopyLaws source target bit bits := by
  intro hlaws
  obtain ⟨hok, hne⟩ := hmis
  obtain ⟨o, k, hpos, -, hk, hn, hm, hcall⟩ := copyIn_of_accepted hs ht hok
  have hmax := hs.le_max
  have hzero : int32 ((source.state.baseBit : Int) - a) = (0 : Nat) := by
    rw [hs.baseBit, sub_self]
    rfl
  have hfirst := hs.test_block (j := 0) hzero (by omega)
  -- a third list whose first bit differs, and which the refused copy leaves alone
  obtain ⟨back, hback, hother⟩ := exists_other_list hpos (by omega) (!bitAt source.bits 0)
  obtain ⟨back', hcall', htests⟩ :=
    hlaws.roundTrip hok _ hcall (32 * k) 0 back hback (by omega)
  have hrefused : bitlistCopyFromPosition
      { target with bits := splice target.bits (o / 32) (source.bits.take k) } back bit bits
        = some back :=
    copyFrom_of_refused fun haccept => hne haccept.2.2.1
  rw [hrefused, Option.some.injEq] at hcall'
  subst hcall'
  have hbit := htests 0 le_rfl (by omega)
  have hpos : int32 ((back.state.baseBit : Int) + 0) = 0 := by
    rw [hback.baseBit]
    rfl
  rw [hpos, hother] at hbit
  rw [show (0 : Int) = ((0 : Nat) : Int) from rfl, hfirst] at hbit
  cases hzero : bitAt source.bits 0 <;> simp [hzero] at hbit

/-- The copies between two lists keep their laws exactly where the block that is copied in
starts with a word of the list it goes to, or is refused. -/
theorem copies_iff (hs : HasGeometry m a source) (ht : HasGeometry n b target)
    (hbits : int32 bits = bits) :
    CopyLaws source target bit bits ↔ ¬Misplaced source target bit bits := by
  constructor
  · intro hlaws hmis
    exact not_roundTrip_of_misplaced hs ht hbits hmis hlaws
  · intro hplaced
    exact
      { copyIn := copyIn_law hs ht hbits hplaced
        copyFrom := copyFrom_law hs ht hbits
        roundTrip := fun hok _ hcopy _ _ _ hback hroom =>
          copies_roundTrip hs ht hbits hplaced hok hcopy hback hroom }

/-- 32 bits from 100 on, all set. -/
def oneWord : BitlistT := ⟨⟨1, 32, 100, 0, 0⟩, [0xffffffff]⟩

/-- The source of the counterexample is well formed. -/
theorem oneWord_geometry : HasGeometry 32 100 oneWord := ⟨rfl, rfl, rfl, rfl, by decide⟩

/-- 96 bits from `base` on, all clear. -/
def threeWords (base : Nat) : BitlistT := ⟨⟨3, 96, base, 0, 0⟩, [0, 0, 0]⟩

/-- So is its target. -/
theorem threeWords_geometry (base : Nat) : HasGeometry 96 base (threeWords base) :=
  ⟨rfl, rfl, rfl, rfl, by decide⟩

/-- Two bases that differ by 64. -/
theorem copies_same_alignment :
    CopyLaws oneWord (threeWords 36) 68 32 ∧
      bitlistCopyInPosition oneWord (threeWords 36) 68 32
        = some ⟨⟨3, 96, 36, 0, 0⟩, [0, 0xffffffff, 0]⟩ := by
  have hplaced : ¬Misplaced oneWord (threeWords 36) 68 32 := by
    intro hmis
    exact absurd hmis.2 (by decide)
  exact ⟨(copies_iff oneWord_geometry (threeWords_geometry 36) (by decide)).mpr hplaced,
    by decide⟩

/-- A block for the positions from 132 on, in the middle of a word of `to`: the copy sets
those from 116 on. -/
theorem not_copies :
    ¬∀ (m a n b : Nat) (source target : BitlistT) (bit bits : Int),
      HasGeometry m a source → HasGeometry n b target → int32 bit = bit → int32 bits = bits →
      CopyLaws source target bit bits := by
  intro hall
  have hlaws := hall 32 100 96 116 oneWord (threeWords 116) 132 32 oneWord_geometry
    (threeWords_geometry 116) (by decide) (by decide)
  obtain ⟨bl', hcall, -, -, hresult⟩ := hlaws.copyIn
  have hcopied : bitlistCopyInPosition oneWord (threeWords 116) 132 32
      = some ⟨⟨3, 96, 116, 0, 0⟩, [0xffffffff, 0, 0]⟩ := by decide
  rw [hcopied, Option.some.injEq] at hcall
  subst hcall
  rcases hresult with hsame | hwritten
  · exact absurd hsame (by decide)
  · -- position 116 is not in the block and has changed
    have hout : ∀ i : Int, 0 ≤ i → i < 32 → (116 : Int) ≠ int32 (132 + i) := by
      intro i hi hlt
      rw [int32_of_range (by omega) (by omega)]
      omega
    exact absurd (hwritten.2 116 (by decide) hout) (by decide)

end Laws

end MyTestFiles.Proofs.Bitlist
