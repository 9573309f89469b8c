import MyTestFiles.Lib.X86

/-!
# `MyTestFiles.Headers.Replicate`: the copies of an AVSM header

`test_assembly_dynhdr.cpp` copies a header of two cache lines through the eight registers
`xmm0` to `xmm7`: once (`copy_avsm_header`), and in a loop to places with a fixed or a given
distance (`replicate_avsm_header`, `distribute_avsm_header`). The loop counts `ecx` down and
tests it after the copy. As in `MyTestFiles.Headers.Validate` a `let` is one instruction, or
one of the eight moves. A fault is `none`, and `sfence` has no effect here.

* The eight loads and the eight stores take 16 bytes each and fault on an address that is not
  aligned (`operand16`). A header that starts at an aligned place has all of its operands aligned.
* `rloop` recurses on the counter as a word of 32 bits. A pass stores the header, moves the
  destination by the distance and counts down, and the loop ends when the counter is zero then.
  With a count of zero it goes round for all words.
* `replicateAvsmHeader` has the distance of a header, and `distributeAvsmHeader` the distance that
  its caller gives, in a register whose high half is cleared.
-/

set_option autoImplicit false

namespace MyTestFiles.Headers

open MyTestFiles.Lib.X86

/-- `CACHELINESIZE` -/
def cacheLineSize : Nat := 64

/-- The eight loads from `[rsi]` on. -/
def loadHeader (m : Mem) (rsi : BitVec 64) : Option (Fin 8 → Xmm) := do
  let xmm0 := movdqa m (← operand16 rsi 0)
  let xmm1 := movdqa m (← operand16 rsi 16)
  let xmm2 := movdqa m (← operand16 rsi 32)
  let xmm3 := movdqa m (← operand16 rsi 48)
  let xmm4 := movdqa m (← operand16 rsi 64)
  let xmm5 := movdqa m (← operand16 rsi 80)
  let xmm6 := movdqa m (← operand16 rsi 96)
  let xmm7 := movdqa m (← operand16 rsi 112)
  some ![xmm0, xmm1, xmm2, xmm3, xmm4, xmm5, xmm6, xmm7]

/-- The eight stores from `[rdi]` on. -/
def storeHeader (xmm : Fin 8 → Xmm) (m : Mem) (rdi : BitVec 64) : Option Mem := do
  let m := movntdq m (← operand16 rdi 0) (xmm 0)
  let m := movntdq m (← operand16 rdi 16) (xmm 1)
  let m := movntdq m (← operand16 rdi 32) (xmm 2)
  let m := movntdq m (← operand16 rdi 48) (xmm 3)
  let m := movntdq m (← operand16 rdi 64) (xmm 4)
  let m := movntdq m (← operand16 rdi 80) (xmm 5)
  let m := movntdq m (← operand16 rdi 96) (xmm 6)
  let m := movntdq m (← operand16 rdi 112) (xmm 7)
  some m

/-- `copy_avsm_header` -/
def copyAvsmHeader (m : Mem) (dest source : BitVec 64) : Option Mem := do
  let xmm ← loadHeader m source
  storeHeader xmm m dest

/-- The label `rloop`. -/
def rloop (xmm : Fin 8 → Xmm) (rdx : BitVec 64) (m : Mem) (rdi : BitVec 64) (ecx : BitVec 32) :
    Option Mem := do
  let m ← storeHeader xmm m rdi
  let rdi := rdi + rdx
  -- `dec ecx; jnz rloop`: zero is counted down to the largest value first.
  if hnext : ecx - 1 ≠ 0 then rloop xmm rdx m rdi (ecx - 1) else some m
termination_by (ecx - 1).toNat
decreasing_by
  have hpos : (ecx - 1).toNat ≠ 0 := fun hzero => hnext (BitVec.eq_of_toNat_eq hzero)
  rw [toNat_sub_one hnext]
  omega

/-- `replicate_avsm_header` -/
def replicateAvsmHeader (m : Mem) (dest source : BitVec 64) (count : BitVec 32) : Option Mem := do
  let rdx := BitVec.ofNat 64 cacheLineSize
  let rdx := rdx <<< 1
  let xmm ← loadHeader m source
  rloop xmm rdx m dest count

/-- `distribute_avsm_header`: `place` is put in `edx`, which clears the high half of `rdx`. -/
def distributeAvsmHeader (m : Mem) (dest source : BitVec 64) (count place : BitVec 32) :
    Option Mem := do
  let rdx := place.setWidth 64
  let xmm ← loadHeader m source
  rloop xmm rdx m dest count

end MyTestFiles.Headers
