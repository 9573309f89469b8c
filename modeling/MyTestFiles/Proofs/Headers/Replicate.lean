import MyTestFiles.Headers.Replicate
import MyTestFiles.Lib.Loop
import MyTestFiles.Lib.Written

/-!
# `MyTestFiles.Proofs.Headers.Replicate`: what the copy loops write

Byte `n` of a header goes through lane `n / 16` of the registers (`headerByte`). One pass
stores the 128 bytes at an aligned place (`storeHeader_spec`). The loop makes one pass more
than `ecx - 1`: `count` passes, or `2 ^ 32` where `count` is zero (`passes_eq`). `rloop_spec`
says what a run of it writes, and `aligned_of_rloop` that a run never stores to a place that
is not aligned. `replication_iff` is the result for both routines.

The bounds of the loop are those of a 32-bit counter. `passes` counts down from `ecx - 1` as the
machine does, so a count of zero means `2 ^ 32` passes and not none.

A place is aligned where its address is a multiple of 16. The first place is the destination, and
the others are a stride apart, so all of them are aligned just where the destination and the
stride are, or where there is one place only (`Replicable`).
-/

set_option autoImplicit false

namespace MyTestFiles.Proofs.Headers

open MyTestFiles.Lib
open MyTestFiles.Lib.X86
open MyTestFiles.Headers

/-- The address is a multiple of sixteen. -/
def Aligned (r : BitVec 64) : Prop := r.toNat % 16 = 0

/-- Byte `n` of copy `j`: the copies are at `dest` and every `stride` bytes from there on. -/
def placeOf (dest : BitVec 64) (stride j n : Nat) : Nat := address dest (j * stride + n)

/-- `after` is `before` with `count` copies of the 128 bytes at `source`, and with nothing else
changed. -/
def Replicated (before after : Mem) (dest source : BitVec 64) (stride count : Nat) : Prop :=
  Copied (placeOf dest stride) (fun n => before (address source n)) {n | n < 128} count before after

/-- The call ends and leaves the copies behind. -/
def Replicates (call : Option Mem) (before : Mem) (dest source : BitVec 64)
    (stride count : Nat) : Prop :=
  ∃ after, call = some after ∧ Replicated before after dest source stride count

/-- The memory already holds that many copies. -/
def HoldsCopies (m : Mem) (dest source : BitVec 64) (stride count : Nat) : Prop :=
  ∀ j < count, ∀ n < 128, m (placeOf dest stride j n) = m (address source n)

/-- Both pointers are aligned and so is every place, and where no copy is asked for the memory
already holds `2 ^ 32` of them. -/
structure Replicable (m : Mem) (dest source : BitVec 64) (count : BitVec 32) (stride : Nat) :
    Prop where
  sourceAligned : Aligned source
  destAligned : Aligned dest
  placesAligned : count = 1 ∨ stride % 16 = 0
  noCopies : count = 0 → HoldsCopies m dest source stride 4294967296

/-! ### One header -/

section Header
variable {m : Mem} {rsi rdi : BitVec 64} {xmm : Fin 8 → Xmm}

/-- The register of a lane. -/
def register (lane : Nat) : Fin 8 := ⟨lane % 8, Nat.mod_lt lane (by decide)⟩

/-- Byte `n` of the header in the registers. -/
def headerByte (xmm : Fin 8 → Xmm) (n : Nat) : Byte :=
  xmm (register (n / 16)) ⟨n % 16, Nat.mod_lt n (by decide)⟩

/-- At an aligned register every lane is an aligned operand. -/
theorem operand16_lane (h : Aligned rdi) (lane : Nat) :
    operand16 rdi (16 * lane) = some (address rdi (16 * lane)) :=
  operand16_of_aligned h (Nat.mul_mod_right 16 lane)

/-- The eight loads of a header from an aligned place do not fault. -/
theorem loadHeader_of_aligned (h : Aligned rsi) :
    loadHeader m rsi = some fun lane : Fin 8 => movdqa m (address rsi (16 * lane)) := by
  simp only [loadHeader, operand16_of_aligned h, Nat.reduceMod]
  show some _ = some _
  congr 1
  funext lane
  fin_cases lane <;> rfl

/-- Byte `n` of the loaded header is byte `n` in memory. -/
theorem headerByte_load (h : Aligned rsi) {n : Nat} (hn : n < 128) :
    headerByte (fun lane : Fin 8 => movdqa m (address rsi (16 * lane))) n = m (address rsi n) := by
  have hlane : (register (n / 16) : Nat) = n / 16 := Nat.mod_eq_of_lt (by omega)
  have hsplit : 16 * (n / 16) + n % 16 = n := Nat.div_add_mod n 16
  show m (address rsi (16 * (register (n / 16) : Nat)) + n % 16) = _
  -- the lane is aligned, so byte `n % 16` of it does not wrap
  rw [hlane, address_add_lane h (Nat.mul_mod_right 16 _) (Nat.mod_lt n (by decide)), hsplit]

/-- The header in the registers has the bytes of the header in memory. -/
theorem loadHeader_spec (h : Aligned rsi) :
    ∃ xmm, loadHeader m rsi = some xmm ∧ ∀ n < 128, headerByte xmm n = m (address rsi n) :=
  ⟨_, loadHeader_of_aligned h, fun _ hn => headerByte_load h hn⟩

/-- The first load faults at an address that is not aligned. -/
theorem aligned_of_loadHeader (h : loadHeader m rsi = some xmm) : Aligned rsi := by
  by_contra hnot
  unfold loadHeader at h
  rw [operand16_of_not_aligned hnot (Nat.zero_mod 16)] at h
  exact absurd h (Option.some_ne_none xmm).symm

/-- The first store faults at an address that is not aligned. -/
theorem aligned_of_storeHeader {after : Mem} (h : storeHeader xmm m rdi = some after) :
    Aligned rdi := by
  by_contra hnot
  unfold storeHeader at h
  rw [operand16_of_not_aligned hnot (Nat.zero_mod 16)] at h
  exact absurd h (Option.some_ne_none after).symm

/-- One of the eight stores. -/
def storeLane (xmm : Fin 8 → Xmm) (rdi : BitVec 64) (m : Mem) (lane : Nat) : Option Mem :=
  (operand16 rdi (16 * lane)).map fun a => movntdq m a (xmm (register lane))

/-- The eight stores of a header are one store for each lane, in order. -/
theorem storeHeader_eq (h : Aligned rdi) :
    storeHeader xmm m rdi = (List.range 8).foldlM (storeLane xmm rdi) m := by
  have hlane : ∀ lane m, storeLane xmm rdi m lane =
      some (movntdq m (address rdi (16 * lane)) (xmm (register lane))) :=
    fun lane _ => congrArg (Option.map _) (operand16_lane h lane)
  simp only [storeHeader, operand16_of_aligned h, Nat.reduceMod]
  show some _ = _
  simp only [List.range, List.range.loop, List.foldlM_cons, List.foldlM_nil, hlane]
  rfl

/-- A lane is sixteen bytes of the header. -/
theorem storeLane_spec (xmm : Fin 8 → Xmm) (m : Mem) (h : Aligned rdi) (lane : Nat) :
    ∃ after, storeLane xmm rdi m lane = some after ∧
      Written (address rdi) (headerByte xmm) {n | 16 * lane ≤ n ∧ n < 16 * lane + 16} m after := by
  refine ⟨movntdq m (address rdi (16 * lane)) (xmm (register lane)),
    congrArg (Option.map _) (operand16_lane h lane), ?_, ?_⟩
  · rintro n ⟨hlow, hhigh⟩
    have hsplit : 16 * lane + n % 16 = n := by omega
    have hbyte : n % 16 < 16 := Nat.mod_lt n (by decide)
    have hsame : n / 16 = lane := by omega
    rw [← hsplit, ← address_add_lane h (Nat.mul_mod_right 16 lane) hbyte,
      movntdq_of_inside hbyte, hsplit, headerByte, hsame]
  · intro a ha
    refine movntdq_of_outside ?_
    -- a byte inside the operand is a byte of the lane
    by_contra hin
    push Not at hin
    refine ha (16 * lane + (a - address rdi (16 * lane))) ⟨by omega, by omega⟩ ?_
    rw [← address_add_lane h (Nat.mul_mod_right 16 lane) (by omega)]
    omega

/-- The eight stores write the header. -/
theorem storeHeader_spec (xmm : Fin 8 → Xmm) (m : Mem) (h : Aligned rdi) :
    ∃ after, storeHeader xmm m rdi = some after ∧
      Written (address rdi) (headerByte xmm) {n | n < 128} m after := by
  rw [storeHeader_eq h]
  -- the stores so far have written the first `lane` lanes
  refine foldlM_range_rule
    (fun lane after => Written (address rdi) (headerByte xmm) {n | n < 16 * lane} m after) ?_ ?_
  · intro lane before hlane hbefore
    obtain ⟨after, hstore, hafter⟩ := storeLane_spec xmm before h lane
    refine ⟨after, hstore, ?_⟩
    have hunion : {n | n < 16 * (lane + 1)} =
        {n | n < 16 * lane} ∪ {n | 16 * lane ≤ n ∧ n < 16 * lane + 16} := by
      ext n
      show n < 16 * (lane + 1) ↔ n < 16 * lane ∨ 16 * lane ≤ n ∧ n < 16 * lane + 16
      omega
    rw [hunion]
    -- the lanes do not meet
    refine hbefore.union hafter ?_
    rintro n hn n' ⟨hlow, hhigh⟩ heq
    have hlt : n < n' := lt_of_lt_of_le hn hlow
    exact absurd heq.symm (address_ne hlt (by omega))
  · have hempty : {n : Nat | n < 16 * 0} = ∅ := by
      ext n
      simp
    rw [hempty]
    exact written_empty _ _ _

end Header

/-! ### The loop -/

/-- The passes of the loop when it starts with this counter. -/
def passes (ecx : BitVec 32) : Nat := (ecx - 1).toNat + 1

/-- A counter of zero makes `2 ^ 32` passes. -/
theorem passes_eq (ecx : BitVec 32) :
    passes ecx = if ecx = 0 then 4294967296 else ecx.toNat := by
  unfold passes
  by_cases h : ecx = 0
  · rw [if_pos h, h]
    rfl
  · have hpos : ecx.toNat ≠ 0 := fun hzero => h (BitVec.eq_of_toNat_eq hzero)
    rw [if_neg h, toNat_sub_one h]
    omega

/-- There are never more than `2 ^ 32` passes. -/
theorem passes_le (ecx : BitVec 32) : passes ecx ≤ 4294967296 := (ecx - 1).isLt

/-- A counter of one makes one pass. -/
theorem passes_last {ecx : BitVec 32} (h : ecx - 1 = 0) : passes ecx = 1 := by
  unfold passes
  rw [h]
  rfl

/-- Every other counter makes one pass and those of the counter below it. For zero that is the
largest counter. -/
theorem passes_again {ecx : BitVec 32} (h : ecx - 1 ≠ 0) : passes ecx = passes (ecx - 1) + 1 := by
  have hpos : (ecx - 1).toNat ≠ 0 := fun hzero => h (BitVec.eq_of_toNat_eq hzero)
  unfold passes
  rw [toNat_sub_one h]
  omega

section Loop
variable {m after : Mem} {xmm : Fin 8 → Xmm} {rdx rdi : BitVec 64} {ecx : BitVec 32}

/-- The last pass stores a header and ends. -/
theorem rloop_of_last {m' : Mem} (hstore : storeHeader xmm m rdi = some m') (h : ecx - 1 = 0) :
    rloop xmm rdx m rdi ecx = some m' := by
  rw [rloop, hstore]
  exact dif_neg (not_not.mpr h)

/-- Every other pass stores a header and goes on one stride further. -/
theorem rloop_of_again {m' : Mem} (hstore : storeHeader xmm m rdi = some m') (h : ecx - 1 ≠ 0) :
    rloop xmm rdx m rdi ecx = rloop xmm rdx m' (rdi + rdx) (ecx - 1) := by
  rw [rloop, hstore]
  exact dif_pos h

/-- A run of the loop begins with a copy. -/
theorem exists_first_copy (h : rloop xmm rdx m rdi ecx = some after) :
    ∃ m', storeHeader xmm m rdi = some m' := by
  rw [rloop] at h
  obtain ⟨m', hstore, -⟩ := Option.bind_eq_some_iff.mp h
  exact ⟨m', hstore⟩

/-- Places at an aligned distance are aligned. -/
theorem aligned_add_iff (h : Aligned rdi) : Aligned (rdi + rdx) ↔ Aligned rdx := by
  unfold Aligned at h ⊢
  rw [BitVec.toNat_add]
  omega

/-- The first place is the destination. -/
theorem placeOf_zero (rdi : BitVec 64) (stride : Nat) : placeOf rdi stride 0 = address rdi := by
  funext n
  rw [placeOf, Nat.zero_mul, Nat.zero_add]

/-- The places from the next one on. -/
theorem placeOf_add (rdi rdx : BitVec 64) :
    placeOf (rdi + rdx) rdx.toNat = fun j => placeOf rdi rdx.toNat (j + 1) := by
  funext j n
  rw [placeOf, placeOf, address_add]
  congr 1
  ring

/-- The copies of one loop do not meet, as the address space has room for all of them. -/
theorem placeOf_ne {stride j n n' : Nat} (hstride : 128 ≤ stride) (hstride' : stride < 4294967296)
    (hj : j < 4294967295) (hn : n < 128) (hn' : n' < 128) :
    placeOf rdi stride (j + 1) n' ≠ placeOf rdi stride 0 n := by
  have hlow : 1 * 128 ≤ (j + 1) * stride := Nat.mul_le_mul (Nat.succ_pos j) hstride
  have hhigh : (j + 1) * stride ≤ 4294967295 * 4294967295 := Nat.mul_le_mul hj (by omega)
  rw [placeOf_zero]
  exact (address_ne (by omega) (by omega)).symm

/-- The loop ends with a copy for each pass and changes nothing else. -/
theorem rloop_spec (xmm : Fin 8 → Xmm) (m : Mem) (hstride : 128 ≤ rdx.toNat)
    (hstride' : rdx.toNat < 4294967296) (hrdi : Aligned rdi)
    (hplaces : passes ecx = 1 ∨ Aligned rdx) :
    ∃ after, rloop xmm rdx m rdi ecx = some after ∧
      Copied (placeOf rdi rdx.toNat) (headerByte xmm) {n | n < 128} (passes ecx) m after := by
  -- on the passes after this one
  induction hrest : (ecx - 1).toNat generalizing m rdi ecx with
  | zero =>
      obtain ⟨after, hstore, hafter⟩ := storeHeader_spec xmm m hrdi
      have hlast : ecx - 1 = 0 := BitVec.eq_of_toNat_eq hrest
      rw [← placeOf_zero rdi rdx.toNat] at hafter
      refine ⟨after, rloop_of_last hstore hlast, ?_⟩
      rw [passes_last hlast]
      exact copied_one hafter
  | succ rest ih =>
      obtain ⟨middle, hstore, hmiddle⟩ := storeHeader_spec xmm m hrdi
      rw [← placeOf_zero rdi rdx.toNat] at hmiddle
      have hagain : ecx - 1 ≠ 0 := fun hzero => by
        rw [hzero] at hrest
        exact Nat.succ_ne_zero rest hrest.symm
      have hpasses := passes_again hagain
      -- another pass follows, so the distance of the places is aligned
      have hrdx : Aligned rdx := hplaces.resolve_left (by unfold passes; omega)
      have hnext : Aligned (rdi + rdx) := (aligned_add_iff hrdi).mpr hrdx
      have hfewer : (ecx - 1 - 1).toNat = rest := by
        rw [toNat_sub_one hagain]
        omega
      obtain ⟨after, hrun, hafter⟩ := ih middle hnext (Or.inr hrdx) hfewer
      rw [placeOf_add] at hafter
      refine ⟨after, (rloop_of_again hstore hagain).trans hrun, ?_⟩
      rw [hpasses]
      -- a later copy would have to wrap around the address space to meet the first
      refine Copied.cons hmiddle hafter ?_
      intro j hj n hn n' hn'
      have hle := passes_le ecx
      exact placeOf_ne hstride hstride' (by omega) hn hn'

/-- A run of the loop has stored to aligned places only. -/
theorem aligned_of_rloop (h : rloop xmm rdx m rdi ecx = some after) :
    Aligned rdi ∧ (ecx - 1 = 0 ∨ Aligned rdx) := by
  obtain ⟨m', hstore⟩ := exists_first_copy h
  have hrdi : Aligned rdi := aligned_of_storeHeader hstore
  refine ⟨hrdi, ?_⟩
  by_cases hlast : ecx - 1 = 0
  · exact Or.inl hlast
  · -- the second pass stores to the next place
    rw [rloop_of_again hstore hlast] at h
    obtain ⟨_, hnext⟩ := exists_first_copy h
    exact Or.inr ((aligned_add_iff hrdi).mp (aligned_of_storeHeader hnext))

end Loop

/-! ### The routines -/

section Routines
variable {m : Mem} {dest source rdx : BitVec 64} {count : BitVec 32}

/-- The loads and the loop, with the distance of the places in `rdx`. -/
def copyLoop (m : Mem) (dest source : BitVec 64) (count : BitVec 32) (rdx : BitVec 64) :
    Option Mem := do
  let xmm ← loadHeader m source
  rloop xmm rdx m dest count

/-- Both routines load the header once, and the loop stores what was loaded. -/
theorem copyLoop_eq (m : Mem) (dest rdx : BitVec 64) (count : BitVec 32) (h : Aligned source) :
    ∃ xmm, (∀ n < 128, headerByte xmm n = m (address source n)) ∧
      copyLoop m dest source count rdx = rloop xmm rdx m dest count := by
  obtain ⟨xmm, hload, hxmm⟩ := loadHeader_spec (m := m) h
  refine ⟨xmm, hxmm, ?_⟩
  unfold copyLoop
  rw [hload]
  rfl

/-- Where every place is aligned the loop runs to its end, and the header is at each place then.
-/
theorem copyLoop_spec (hstride : 128 ≤ rdx.toNat) (hstride' : rdx.toNat < 4294967296)
    (hsource : Aligned source) (hdest : Aligned dest) (hplaces : count = 1 ∨ Aligned rdx) :
    ∃ after, copyLoop m dest source count rdx = some after ∧
      Replicated m after dest source rdx.toNat (passes count) := by
  obtain ⟨xmm, hxmm, hloop⟩ := copyLoop_eq m dest rdx count hsource
  -- a count of one is a single pass
  have hpasses : passes count = 1 ∨ Aligned rdx :=
    hplaces.imp_left fun hone => passes_last (by rw [hone]; rfl)
  obtain ⟨after, hrun, hafter⟩ :=
    rloop_spec xmm m hstride hstride' hdest hpasses
  exact ⟨after, hloop.trans hrun, hafter.congr hxmm⟩

/-- A call that ends met aligned addresses only. -/
theorem aligned_of_copyLoop {after : Mem} (h : copyLoop m dest source count rdx = some after) :
    Aligned source ∧ Aligned dest ∧ (count = 1 ∨ Aligned rdx) := by
  obtain ⟨xmm, hload, hloop⟩ := Option.bind_eq_some_iff.mp h
  obtain ⟨hdest, hplaces⟩ := aligned_of_rloop hloop
  exact ⟨aligned_of_loadHeader hload, hdest, hplaces.imp_left sub_eq_zero.mp⟩

/-- The loop makes the copies that were asked for exactly under the condition. -/
theorem copyLoop_iff (m : Mem) (dest source rdx : BitVec 64) (count : BitVec 32)
    (hstride : 128 ≤ rdx.toNat) (hstride' : rdx.toNat < 4294967296) :
    Replicates (copyLoop m dest source count rdx) m dest source rdx.toNat count.toNat ↔
      Replicable m dest source count rdx.toNat := by
  constructor
  · rintro ⟨after, hrun, hafter⟩
    obtain ⟨hsource, hdest, hplaces⟩ := aligned_of_copyLoop hrun
    refine ⟨hsource, hdest, hplaces, ?_⟩
    rintro rfl
    obtain ⟨after', hrun', hafter'⟩ :=
      copyLoop_spec (m := m) hstride hstride' hsource hdest hplaces
    -- the call has made `2 ^ 32` copies and left the memory as it was
    obtain rfl : after' = after := Option.some_inj.mp (hrun'.symm.trans hrun)
    obtain rfl : after' = m := copied_zero_iff.mp hafter
    exact copied_self_iff.mp hafter'
  · rintro ⟨hsource, hdest, hplaces, hnone⟩
    obtain ⟨after, hrun, hafter⟩ := copyLoop_spec (m := m) hstride hstride' hsource hdest hplaces
    rw [passes_eq] at hafter
    by_cases hzero : count = 0
    · rw [if_pos hzero] at hafter
      -- the copies are there already, so the `2 ^ 32` passes change nothing
      have hsame : after = m := hafter.unique (copied_self_iff.mpr (hnone hzero))
      rw [hsame] at hrun
      refine ⟨m, hrun, ?_⟩
      rw [hzero]
      exact copied_zero_iff.mpr rfl
    · rw [if_neg hzero] at hafter
      exact ⟨after, hrun, hafter⟩

/-- The routine with the fixed stride of 128 bytes. -/
theorem replicateAvsmHeader_iff :
    Replicates (replicateAvsmHeader m dest source count) m dest source 128 count.toNat ↔
      Replicable m dest source count 128 :=
  copyLoop_iff m dest source 128 count (by decide) (by decide)

/-- The routine with a stride of its caller's. -/
theorem distributeAvsmHeader_iff {place : BitVec 32} (hplace : 128 ≤ place.toNat) :
    Replicates (distributeAvsmHeader m dest source count place) m dest source place.toNat
        count.toNat ↔
      Replicable m dest source count place.toNat := by
  have hrdx : (place.setWidth 64).toNat = place.toNat :=
    BitVec.toNat_setWidth_of_le (by decide)
  have hiff := copyLoop_iff m dest source (place.setWidth 64) count (by omega) (by omega)
  rwa [hrdx] at hiff

/-- The single copy only needs aligned pointers. -/
theorem copyAvsmHeader_iff :
    Replicates (copyAvsmHeader m dest source) m dest source 128 1 ↔
      Aligned source ∧ Aligned dest := by
  constructor
  · rintro ⟨after, hrun, -⟩
    obtain ⟨xmm, hload, hstore⟩ := Option.bind_eq_some_iff.mp hrun
    exact ⟨aligned_of_loadHeader hload, aligned_of_storeHeader hstore⟩
  · rintro ⟨hsource, hdest⟩
    obtain ⟨xmm, hload, hxmm⟩ := loadHeader_spec (m := m) hsource
    obtain ⟨after, hstore, hafter⟩ := storeHeader_spec xmm m hdest
    rw [← placeOf_zero dest 128] at hafter
    refine ⟨after, ?_, (copied_one hafter).congr hxmm⟩
    unfold copyAvsmHeader
    rw [hload]
    exact hstore

end Routines

/-- `replicate_avsm_header` and, from a distance of 128 bytes on, `distribute_avsm_header` end
with `count` copies and nothing else changed exactly when their condition holds. -/
theorem replication_iff (m : Mem) (dest source : BitVec 64) (count : BitVec 32) :
    (Replicates (replicateAvsmHeader m dest source count) m dest source 128 count.toNat ↔
      Replicable m dest source count 128) ∧
    ∀ place : BitVec 32, 128 ≤ place.toNat →
      (Replicates (distributeAvsmHeader m dest source count place) m dest source place.toNat
          count.toNat ↔
        Replicable m dest source count place.toNat) :=
  ⟨replicateAvsmHeader_iff, fun _ hplace => distributeAvsmHeader_iff hplace⟩

/-- A header of ones at zero, and zeros behind it. -/
def onesHeader : Mem := fun a => if a < 128 then 1 else 0

/-- Three copies, as in the source's test. -/
theorem replication_iff_three :
    Replicates (replicateAvsmHeader onesHeader 512 0 3) onesHeader 512 0 128 3 :=
  (replication_iff onesHeader 512 0 3).1.mpr ⟨rfl, rfl, Or.inr rfl, fun h => absurd h (by decide)⟩

/-- No copy is asked for, and the byte at 128 changes. -/
theorem not_replication :
    ¬ Replicates (replicateAvsmHeader onesHeader 128 0 0) onesHeader 128 0 128 0 := by
  intro h
  have hcopies := (replicateAvsmHeader_iff.mp h).noCopies rfl 0 (by decide) 0 (by decide)
  exact absurd hcopies (by decide)

end MyTestFiles.Proofs.Headers
