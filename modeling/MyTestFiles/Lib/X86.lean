import Mathlib

/-!
# `MyTestFiles.Lib.X86`: the instructions of a byte-compare routine

A 32-bit register is a `BitVec 32`, an SSE register is sixteen bytes, and memory is a
function from addresses to bytes. Each instruction is a function on these values, with
the operand order of the Intel syntax. Memory is little endian. `movdqa` and `movntdq` are
the moves alone: the alignment fault of their operand is in `operand16`.

The theorems read the instructions bit by bit or byte by byte:

* `getLsbD_pmovmskb_pcmpeqb`: bit `i` of the mask of a byte compare says whether byte
  `i` of the two operands agrees.
* `bsf_spec`: `bsf` finds the least set bit.
* `toNat_rol8_load16`: a 16-bit load followed by `rol 8` reads a big-endian number.
* `store8_of_ne`, `store16_of_ne`, `store32_of_ne`: the stores change no other byte.
* `movntdq_of_inside`, `movntdq_of_outside`: the same for the store of sixteen bytes, and
  `address_add_lane` for the address of a byte of an aligned operand.
* `SameBytes.load16_eq` and `SameBytes.store16` with their siblings: a routine that runs on
  the same bytes at another address reads and leaves the same bytes.
* `and_add_one_eq_zero_iff`, `toNat_scan`: two 32-bit masks are one 64-bit compare. The sum
  `(lo & hi) + 1` is zero when every bit is set, and the scan of the two complements
  finds the least clear bit.
-/

set_option autoImplicit false

namespace MyTestFiles.Lib.X86

/-- One byte of memory. -/
abbrev Byte := BitVec 8

/-- Memory: one byte at each address. -/
abbrev Mem := Nat → Byte

/-- An SSE register: sixteen bytes, the byte at the lowest address first. -/
abbrev Xmm := Fin 16 → Byte

/-! ### Loads and stores -/

/-- `movdqa xmm, [a]`: the sixteen bytes from `a` on. -/
def movdqa (m : Mem) (a : Nat) : Xmm := fun i => m (a + i)

/-- `movntdq [a], xmm`: the sixteen bytes from `a` on. -/
def movntdq (m : Mem) (a : Nat) (x : Xmm) : Mem :=
  fun i => if h : a ≤ i ∧ i - a < 16 then x ⟨i - a, h.2⟩ else m i

/-- The address `[r + displacement]`, which has 64 bits. -/
def address (r : BitVec 64) (displacement : Nat) : Nat := (r + BitVec.ofNat 64 displacement).toNat

/-- An operand of sixteen bytes at `[r + displacement]`. One that is not aligned faults. -/
def operand16 (r : BitVec 64) (displacement : Nat) : Option Nat :=
  if address r displacement % 16 = 0 then some (address r displacement) else none

/-- `mov r16, word ptr [a]`. -/
def load16 (m : Mem) (a : Nat) : BitVec 16 := m (a + 1) ++ m a

/-- `mov r32, dword ptr [a]`. -/
def load32 (m : Mem) (a : Nat) : BitVec 32 := m (a + 3) ++ m (a + 2) ++ m (a + 1) ++ m a

/-- `mov byte ptr [a], r8`. -/
def store8 (m : Mem) (a : Nat) (b : Byte) : Mem := Function.update m a b

/-- `mov word ptr [a], r16`. -/
def store16 (m : Mem) (a : Nat) (w : BitVec 16) : Mem :=
  store8 (store8 m a (w.extractLsb' 0 8)) (a + 1) (w.extractLsb' 8 8)

/-- `mov dword ptr [a], r32`. -/
def store32 (m : Mem) (a : Nat) (w : BitVec 32) : Mem :=
  store16 (store16 m a (w.extractLsb' 0 16)) (a + 2) (w.extractLsb' 16 16)

/-! ### Register instructions -/

/-- A write to the low half of a 32-bit register (`mov ax, ..` for `eax`). -/
def setLow16 (r : BitVec 32) (w : BitVec 16) : BitVec 32 := r.extractLsb' 16 16 ++ w

/-- `rol r16, 8`. -/
def rol8 (w : BitVec 16) : BitVec 16 := w.rotateLeft 8

/-- `bswap r32`. -/
def bswap (r : BitVec 32) : BitVec 32 :=
  r.extractLsb' 0 8 ++ r.extractLsb' 8 8 ++ r.extractLsb' 16 8 ++ r.extractLsb' 24 8

/-- `bsf dst, src`: the index of the least set bit of `src`. The destination keeps its
value when `src` is zero. -/
def bsf (dst src : BitVec 32) : BitVec 32 := if src = 0 then dst else src.ctz

/-- `pcmpeqb x, y`: each byte becomes all ones where the operands agree, else zero. -/
def pcmpeqb (x y : Xmm) : Xmm := fun i => if x i = y i then 0xff else 0

/-- `pmovmskb r32, x`: the top bits of the sixteen bytes, as a mask. -/
def pmovmskb (x : Xmm) : BitVec 32 := (BitVec.ofFnLE fun i => (x i).msb).setWidth 32

/-! ### The byte compare -/

/-- Bit `i` of the mask of a byte compare: byte `i` of the operands agrees. Above the
sixteen lanes the mask is zero. -/
theorem getLsbD_pmovmskb_pcmpeqb (m n : Mem) (a b i : Nat) :
    (pmovmskb (pcmpeqb (movdqa m a) (movdqa n b))).getLsbD i
      = (decide (i < 16) && decide (m (a + i) = n (b + i))) := by
  unfold pmovmskb
  rw [BitVec.getLsbD_setWidth]
  by_cases hi : i < 16
  · have h32 : i < 32 := by omega
    rw [BitVec.getLsbD_eq_getElem hi, BitVec.getElem_ofFnLE, decide_eq_true h32,
      decide_eq_true hi, Bool.true_and, Bool.true_and]
    show (if m (a + i) = n (b + i) then (0xff : Byte) else 0).msb = _
    by_cases h : m (a + i) = n (b + i)
    · rw [if_pos h, decide_eq_true h]
      decide
    · rw [if_neg h, decide_eq_false h]
      decide
  · have hout : i ≥ 16 := by omega
    simp [hi, BitVec.getLsbD_of_ge _ _ hout]

/-- `bsf` on a nonzero source: the least set bit, inside the register. -/
theorem bsf_spec (dst src : BitVec 32) (h : src ≠ 0) :
    (bsf dst src).toNat < 32 ∧ src.getLsbD (bsf dst src).toNat = true ∧
      ∀ j, j < (bsf dst src).toNat → src.getLsbD j = false := by
  have hb : bsf dst src = src.ctz := if_neg h
  rw [hb]
  refine ⟨?_, BitVec.getLsbD_true_ctz_of_ne_zero h, fun j hj =>
    BitVec.getLsbD_false_of_lt_ctz hj⟩
  have := BitVec.ctz_lt_iff_ne_zero.mpr h
  simpa [BitVec.lt_def] using this

/-! ### Byte order -/

/-- A byte swap moves bit `i` to the byte at the other end. -/
theorem getLsbD_bswap (r : BitVec 32) (i : Nat) (hi : i < 32) :
    (bswap r).getLsbD i = r.getLsbD (8 * (3 - i / 8) + i % 8) := by
  unfold bswap
  simp only [BitVec.getLsbD_append, BitVec.getLsbD_extractLsb']
  split_ifs with h0 h1 h2
  · rw [decide_eq_true h0, Bool.true_and]; congr 1; omega
  · rw [decide_eq_true h1, Bool.true_and]; congr 1; omega
  · rw [decide_eq_true h2, Bool.true_and]; congr 1; omega
  · rw [decide_eq_true (by omega), Bool.true_and]; congr 1; omega

/-- Two byte swaps cancel. -/
@[simp] theorem bswap_bswap (r : BitVec 32) : bswap (bswap r) = r := by
  apply BitVec.eq_of_getLsbD_eq
  intro i hi
  rw [getLsbD_bswap _ i hi, getLsbD_bswap _ _ (by omega)]
  congr 1
  omega

/-- Rotating a two-byte word by eight swaps its bytes. -/
theorem rol8_append (a b : Byte) : rol8 (a ++ b) = b ++ a := by
  apply BitVec.eq_of_getLsbD_eq
  intro i hi
  unfold rol8
  rw [BitVec.getLsbD_rotateLeft]
  simp only [BitVec.getLsbD_append]
  by_cases h : i < 8
  · simp [h]
  · simp [h, hi]
    omega

/-- A 16-bit load rotated by eight is the big-endian value of its two bytes. -/
theorem toNat_rol8_load16 (m : Mem) (a : Nat) :
    (rol8 (load16 m a)).toNat = 256 * (m a).toNat + (m (a + 1)).toNat := by
  have hor := Nat.two_pow_add_eq_or_of_lt (m (a + 1)).isLt (m a).toNat
  rw [load16, rol8_append, BitVec.toNat_append, Nat.shiftLeft_eq, Nat.mul_comm, ← hor]

/-- Writing the low half leaves the high half, read as numbers. -/
theorem toNat_setLow16 (r : BitVec 32) (w : BitVec 16) :
    (setLow16 r w).toNat = 65536 * (r.toNat / 65536) + w.toNat := by
  have hr := r.isLt
  have hhi : (r.extractLsb' 16 16).toNat = r.toNat / 65536 := by
    rw [BitVec.extractLsb'_toNat, Nat.shiftRight_eq_div_pow]
    omega
  have hor := Nat.two_pow_add_eq_or_of_lt w.isLt (r.extractLsb' 16 16).toNat
  rw [setLow16, BitVec.toNat_append, Nat.shiftLeft_eq, Nat.mul_comm, ← hor, hhi]

/-! ### What a store leaves alone -/

/-- A byte store changes one byte. -/
theorem store8_of_ne {m : Mem} {a i : Nat} {b : Byte} (h : i ≠ a) :
    store8 m a b i = m i := Function.update_of_ne h _ _

/-- The byte that was stored. -/
@[simp] theorem store8_self (m : Mem) (a : Nat) (b : Byte) : store8 m a b a = b :=
  Function.update_self _ _ _

/-- A word store changes two bytes. -/
theorem store16_of_ne {m : Mem} {a i : Nat} {w : BitVec 16} (h : i < a ∨ a + 2 ≤ i) :
    store16 m a w i = m i := by
  unfold store16
  rw [store8_of_ne (by omega), store8_of_ne (by omega)]

/-- A doubleword store changes four bytes. -/
theorem store32_of_ne {m : Mem} {a i : Nat} {w : BitVec 32} (h : i < a ∨ a + 4 ≤ i) :
    store32 m a w i = m i := by
  unfold store32
  rw [store16_of_ne (by omega), store16_of_ne (by omega)]

/-- The bytes that were stored. -/
theorem movntdq_of_inside {m : Mem} {a i : Nat} {x : Xmm} (hi : i < 16) :
    movntdq m a x (a + i) = x ⟨i, hi⟩ := by
  have hinside : a ≤ a + i ∧ a + i - a < 16 := by omega
  have hindex : (⟨a + i - a, hinside.2⟩ : Fin 16) = ⟨i, hi⟩ := Fin.ext (Nat.add_sub_cancel_left a i)
  rw [movntdq, dif_pos hinside, hindex]

/-- All other bytes are as before. -/
theorem movntdq_of_outside {m : Mem} {a b : Nat} {x : Xmm} (hb : b < a ∨ a + 16 ≤ b) :
    movntdq m a x b = m b :=
  dif_neg (by omega)

/-- A doubleword is read back as it was stored. -/
@[simp] theorem load32_store32 (m : Mem) (a : Nat) (w : BitVec 32) :
    load32 (store32 m a w) a = w := by
  have h0 : store32 m a w a = w.extractLsb' 0 8 := by
    simp only [store32, store16]
    rw [store8_of_ne (by omega), store8_of_ne (by omega), store8_of_ne (by omega), store8_self]
    exact BitVec.eq_of_getLsbD_eq fun i hi => by simp [hi]
  have h1 : store32 m a w (a + 1) = w.extractLsb' 8 8 := by
    simp only [store32, store16]
    rw [store8_of_ne (by omega), store8_of_ne (by omega), store8_self]
    exact BitVec.eq_of_getLsbD_eq fun i hi => by simp [hi]
  have h2 : store32 m a w (a + 2) = w.extractLsb' 16 8 := by
    simp only [store32, store16]
    rw [store8_of_ne (by omega), store8_self]
    exact BitVec.eq_of_getLsbD_eq fun i hi => by simp [hi, show i < 16 by omega]
  have h3 : store32 m a w (a + 3) = w.extractLsb' 24 8 := by
    simp only [store32, store16]
    rw [show a + 3 = a + 2 + 1 from rfl, store8_self]
    exact BitVec.eq_of_getLsbD_eq fun i hi => by
      simp [hi, show 8 + i < 16 by omega, show 16 + (8 + i) = 24 + i by omega]
  rw [load32, h0, h1, h2, h3]
  exact BitVec.eq_of_getLsbD_eq fun i hi => by
    simp only [BitVec.getLsbD_append, BitVec.getLsbD_extractLsb']
    split_ifs <;> grind

/-- A word is read back as it was stored. -/
@[simp] theorem load16_store16 (m : Mem) (a : Nat) (w : BitVec 16) :
    load16 (store16 m a w) a = w := by
  have h0 : store16 m a w a = w.extractLsb' 0 8 := by
    rw [store16, store8_of_ne (by omega), store8_self]
  have h1 : store16 m a w (a + 1) = w.extractLsb' 8 8 := store8_self _ _ _
  rw [load16, h0, h1]
  exact BitVec.eq_of_getLsbD_eq fun i hi => by
    simp only [BitVec.getLsbD_append, BitVec.getLsbD_extractLsb']
    split_ifs <;> grind

/-! ### Counters and addresses -/

/-- `dec` of a counter that is not zero. -/
theorem toNat_sub_one {r : BitVec 32} (h : r ≠ 0) : (r - 1).toNat = r.toNat - 1 := by
  have hpos : r.toNat ≠ 0 := fun hzero => h (BitVec.eq_of_toNat_eq hzero)
  have hlt := r.isLt
  rw [BitVec.toNat_sub]
  show (2 ^ 32 - 1 + r.toNat) % 2 ^ 32 = r.toNat - 1
  omega

/-- Addresses wrap at 64 bits. -/
theorem address_eq (r : BitVec 64) (n : Nat) : address r n = (r.toNat + n) % 2 ^ 64 := by
  rw [address, BitVec.toNat_add, BitVec.toNat_ofNat, Nat.add_mod_mod]

/-- Moving the base on moves every address on. -/
theorem address_add (r s : BitVec 64) (n : Nat) : address (r + s) n = address r (s.toNat + n) := by
  rw [address_eq, address_eq, BitVec.toNat_add, Nat.mod_add_mod, Nat.add_assoc]

/-- Distances below the size of the address space are kept apart. -/
theorem address_ne {r : BitVec 64} {n n' : Nat} (hlt : n < n') (hnear : n' - n < 2 ^ 64) :
    address r n ≠ address r n' := by
  rw [address_eq, address_eq]
  intro h
  have hdvd := (Nat.modEq_iff_dvd' (by omega : r.toNat + n ≤ r.toNat + n')).mp h
  have hle := Nat.le_of_dvd (by omega) hdvd
  omega

/-- An aligned operand does not fault. -/
theorem operand16_of_aligned {r : BitVec 64} {n : Nat} (hr : r.toNat % 16 = 0)
    (hn : n % 16 = 0) : operand16 r n = some (address r n) := by
  refine if_pos ?_
  rw [address_eq]
  omega

/-- An operand that is not aligned faults. -/
theorem operand16_of_not_aligned {r : BitVec 64} {n : Nat} (hr : r.toNat % 16 ≠ 0)
    (hn : n % 16 = 0) : operand16 r n = none := by
  refine if_neg ?_
  rw [address_eq]
  omega

/-- The bytes of an aligned operand follow each other: the address does not wrap inside. -/
theorem address_add_lane {r : BitVec 64} {n i : Nat} (hr : r.toNat % 16 = 0) (hn : n % 16 = 0)
    (hi : i < 16) : address r n + i = address r (n + i) := by
  rw [address_eq, address_eq]
  omega

/-! ### The same bytes at two places

`SameBytes n m a m' a'` compares `n` bytes at two addresses. Loads at the same offset read
the same value, and stores of the same value keep the relation. -/

/-- The `n` bytes at `a` in `m` are the `n` bytes at `a'` in `m'`. -/
def SameBytes (n : Nat) (m : Mem) (a : Nat) (m' : Mem) (a' : Nat) : Prop :=
  ∀ i < n, m (a + i) = m' (a' + i)

section SameBytes
variable {n : Nat} {m m' : Mem} {a a' : Nat}

/-- Inside the common bytes a 16-bit load gives the same. -/
theorem SameBytes.load16_eq (h : SameBytes n m a m' a') {k : Nat} (hk : k + 2 ≤ n) :
    load16 m (a + k) = load16 m' (a' + k) := by
  simp only [load16, Nat.add_assoc]
  rw [h k (by omega), h (k + 1) (by omega)]

/-- Inside the common bytes a 32-bit load gives the same. -/
theorem SameBytes.load32_eq (h : SameBytes n m a m' a') {k : Nat} (hk : k + 4 ≤ n) :
    load32 m (a + k) = load32 m' (a' + k) := by
  simp only [load32, Nat.add_assoc]
  rw [h k (by omega), h (k + 1) (by omega), h (k + 2) (by omega), h (k + 3) (by omega)]

/-- The same byte stored at the same place leaves the bytes the same. -/
theorem SameBytes.store8 (h : SameBytes n m a m' a') (k : Nat) (b : Byte) :
    SameBytes n (store8 m (a + k) b) a (store8 m' (a' + k) b) a' := fun i hi => by
  by_cases hik : i = k
  · rw [hik, store8_self, store8_self]
  · rw [store8_of_ne (by omega), store8_of_ne (by omega)]
    exact h i hi

/-- The same for a 16-bit store. -/
theorem SameBytes.store16 (h : SameBytes n m a m' a') (k : Nat) (w : BitVec 16) :
    SameBytes n (store16 m (a + k) w) a (store16 m' (a' + k) w) a' :=
  (h.store8 k _).store8 (k + 1) _

/-- The same for a 32-bit store. -/
theorem SameBytes.store32 (h : SameBytes n m a m' a') (k : Nat) (w : BitVec 32) :
    SameBytes n (store32 m (a + k) w) a (store32 m' (a' + k) w) a' :=
  (h.store16 k _).store16 (k + 2) _

end SameBytes

/-! ### Two masks as one 64-bit compare -/

section Masks
variable {lo hi : BitVec 32} {f : Nat → Bool}

/-- A register is all ones exactly when its complement is zero. -/
theorem not_eq_zero_iff (x : BitVec 32) : ~~~x = 0 ↔ ∀ i < 32, x.getLsbD i = true := by
  constructor
  · intro h i hi
    have := congrArg (·.getLsbD i) h
    simpa [hi] using this
  · intro h
    apply BitVec.eq_of_getLsbD_eq
    intro i hi
    simp [hi, h i hi]

/-- Adding one to a register wraps to zero exactly at the all-ones value. -/
theorem add_one_eq_zero_iff (x : BitVec 32) : x + 1 = 0 ↔ ~~~x = 0 := by
  have hx := x.isLt
  simp only [← BitVec.toNat_inj, BitVec.toNat_add, BitVec.toNat_not]
  simp
  omega

/-- The sum of the two masks' conjunction and one is zero exactly when all 64 bits are
set. -/
theorem and_add_one_eq_zero_iff (hlo : ∀ i < 32, lo.getLsbD i = f i)
    (hhi : ∀ i < 32, hi.getLsbD i = f (32 + i)) :
    (lo &&& hi) + 1 = 0 ↔ ∀ i < 64, f i = true := by
  rw [add_one_eq_zero_iff, not_eq_zero_iff]
  constructor
  · intro h i hi64
    by_cases h32 : i < 32
    · have := h i h32
      rw [BitVec.getLsbD_and, hlo i h32, Bool.and_eq_true] at this
      exact this.1
    · have := h (i - 32) (by omega)
      rw [BitVec.getLsbD_and, hhi (i - 32) (by omega), Bool.and_eq_true] at this
      rw [show i = 32 + (i - 32) by omega]
      exact this.2
  · intro h i h32
    rw [BitVec.getLsbD_and, hlo i h32, hhi i h32, h i (by omega), h (32 + i) (by omega)]
    rfl

/-- `bsf` on a complement finds the least clear bit. -/
theorem toNat_bsf_not (dst : BitVec 32) {x : BitVec 32} {k : Nat} (hk : k < 32)
    (hxk : x.getLsbD k = false) (hmin : ∀ j < k, x.getLsbD j = true) :
    (bsf dst (~~~x)).toNat = k := by
  have hne : ~~~x ≠ 0 := fun h => by
    rw [(not_eq_zero_iff x).mp h k hk] at hxk
    exact absurd hxk (by decide)
  obtain ⟨hlt, hset, hbelow⟩ := bsf_spec dst _ hne
  rcases Nat.lt_trichotomy (bsf dst (~~~x)).toNat k with h | h | h
  · rw [BitVec.getLsbD_not, hmin _ h] at hset
    simp at hset
  · exact h
  · have := hbelow k h
    rw [BitVec.getLsbD_not, hxk, decide_eq_true hk] at this
    exact absurd this (by decide)

/-- The scan for the first clear bit, the low mask first and then the high one, returns
one more than the least index whose bit is clear. -/
theorem toNat_scan (eax : BitVec 32) (hlo : ∀ i < 32, lo.getLsbD i = f i)
    (hhi : ∀ i < 32, hi.getLsbD i = f (32 + i)) {k : Nat} (hk : k < 64)
    (hfk : f k = false) (hmin : ∀ j < k, f j = true) :
    (if ~~~lo = 0 then bsf eax (~~~hi) + 33 else bsf eax (~~~lo) + 1).toNat = k + 1 := by
  -- The first clear bit is in the low mask, or the low mask is all ones.
  by_cases h32 : k < 32
  · have hne : ~~~lo ≠ 0 := fun h => by
      have := (not_eq_zero_iff lo).mp h k h32
      rw [hlo k h32, hfk] at this
      exact absurd this (by decide)
    have hpos : (bsf eax (~~~lo)).toNat = k :=
      toNat_bsf_not eax h32 (by rw [hlo k h32, hfk])
        fun j hj => by rw [hlo j (by omega), hmin j hj]
    rw [if_neg hne, BitVec.toNat_add, hpos]
    simp
    omega
  · have hz : ~~~lo = 0 := (not_eq_zero_iff lo).mpr fun i hi => by
      rw [hlo i hi, hmin i (by omega)]
    have hpos : (bsf eax (~~~hi)).toNat = k - 32 :=
      toNat_bsf_not eax (by omega)
        (by rw [hhi _ (by omega), show 32 + (k - 32) = k by omega, hfk])
        fun j hj => by rw [hhi j (by omega), hmin _ (by omega)]
    rw [if_pos hz, BitVec.toNat_add, hpos]
    simp
    omega

end Masks

end MyTestFiles.Lib.X86
