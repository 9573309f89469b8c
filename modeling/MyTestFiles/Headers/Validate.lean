import MyTestFiles.Lib.X86

/-!
# `MyTestFiles.Headers.Validate`: the header validators

`test_assembly_dynhdr.cpp` compares a received packet header with a predicted one in
inline assembly. Three routines share one instruction sequence and differ in their
displacements and masks. `clientValidate` is that sequence over a `Layout` of
displacements, and each routine is `clientValidate` at its own layout.
`serverValidateAvsmHeader` is the routine of the other side: its three compared lanes and
its accept path are its own.

A `let` below is one instruction, under the name of the register it writes. `src` and
`rsi` are the received buffer and its pointer, `predicted` and `rdi` the predicted ones.
The result is the returned word (`eax`) and the predicted buffer afterwards. The buffers are
taken to be aligned: `movdqa` does not fault here.

The alignment is an assumption of the source itself, whose headers are aligned to cache lines. A
dynamic header in front of the header keeps it aligned when its length is a multiple of 16
(`dynOffset`), and the statements that run a routine on fixed buffers use such lengths. Where the
alignment itself is the point, in the copy loops of `Headers.Replicate`, the fault is part of the
model.

* `compareMasks` is the compare, `accept` and `mismatch` are the two ways out of it. The returned
  word holds the length of the payload, the miss field and the flag that asks for an
  acknowledgement.
* The stores go to the predicted buffer only, and each accepted packet moves the prediction on.
-/

set_option autoImplicit false

namespace MyTestFiles.Headers

open MyTestFiles.Lib.X86

/-- The bits of the returned word that tell where a mismatch was found. -/
def missMask : BitVec 32 := 0x7FFF0000
/-- The bit of the returned word that asks for an acknowledgement. -/
def ackMask : BitVec 32 := 0x80000000
/-- The bytes of the two headers, which are taken from the total length. -/
def ipOverhead : Nat := 40

/-- The bytes of the first two lanes that the AVSM routine does not compare. -/
def avsmClientDc1 : BitVec 32 := 0xF0000DFE
/-- The bytes of the other two lanes that it does not compare. -/
def avsmClientDc2 : BitVec 32 := 0xFFFF00FC
/-- The bytes of the first two lanes that the Ethernet routine does not compare. -/
def clientDc1 : BitVec 32 := 0x037F8000
/-- The bytes of the other two lanes that it does not compare. -/
def clientDc2 : BitVec 32 := 0xC03F3C00

/-- The displacements and masks of one routine: the first of the four compared lanes, the
header fields the routine reads and writes, and the two don't-care masks. -/
structure Layout where
  lanes : Nat
  ipLength : Nat
  tcpSequence : Nat
  tcpAck : Nat
  tcpWindow : Nat
  ipTtl : Nat
  ipTos : Nat
  dc1 : BitVec 32
  dc2 : BitVec 32

/-- `client_validate_header`: the headers follow a 14-byte Ethernet header. -/
def clientLayout : Layout where
  lanes := 0
  ipLength := 16
  tcpSequence := 38
  tcpAck := 42
  tcpWindow := 48
  ipTtl := 22
  ipTos := 15
  dc1 := clientDc1
  dc2 := clientDc2

/-- `client_validate_avsm_header`: the headers follow a 32-byte RBEH. -/
def avsmLayout : Layout where
  lanes := 32
  ipLength := 34
  tcpSequence := 56
  tcpAck := 60
  tcpWindow := 66
  ipTtl := 40
  ipTos := 33
  dc1 := avsmClientDc1
  dc2 := avsmClientDc2

/-- `client_validate_dyn_header`: the pointers already skip the dynamic headers. -/
def dynLayout : Layout where
  lanes := 0
  ipLength := 2
  tcpSequence := 24
  tcpAck := 28
  tcpWindow := 34
  ipTtl := 8
  ipTos := 1
  dc1 := avsmClientDc1
  dc2 := avsmClientDc2

/-- The compare, up to `or ecx, edx`: `eax` covers the lanes 0 and 1, `ecx` the lanes 2
and 3. A set bit is a byte that agrees or does not matter. -/
def compareMasks (l : Layout) (src : Mem) (rsi : Nat) (predicted : Mem) (rdi : Nat) :
    BitVec 32 × BitVec 32 :=
  let xmm0 := pcmpeqb (movdqa src (rsi + l.lanes)) (movdqa predicted (rdi + l.lanes))
  let xmm1 := pcmpeqb (movdqa src (rsi + (l.lanes + 16))) (movdqa predicted (rdi + (l.lanes + 16)))
  let xmm2 := pcmpeqb (movdqa src (rsi + (l.lanes + 32))) (movdqa predicted (rdi + (l.lanes + 32)))
  let xmm3 := pcmpeqb (movdqa src (rsi + (l.lanes + 48))) (movdqa predicted (rdi + (l.lanes + 48)))
  let eax := pmovmskb xmm0
  let ebx := pmovmskb xmm1
  let ecx := pmovmskb xmm2
  let edx := pmovmskb xmm3
  let ebx := ebx <<< 16
  let edx := edx <<< 16
  let eax := eax ||| l.dc1
  let ecx := ecx ||| l.dc2
  let eax := eax ||| ebx
  let ecx := ecx ||| edx
  (eax, ecx)

/-- The acknowledgement update of an accepted packet, up to the label `getlength`. -/
def ackUpdate (l : Layout) (src : Mem) (rsi : Nat) (predicted : Mem) (rdi : Nat) : Mem :=
  let edx := load32 src (rsi + l.tcpAck)
  let bx := load16 src (rsi + l.tcpWindow)
  let esi := load32 predicted (rdi + l.tcpAck)
  let edx := bswap edx
  let esi := bswap esi
  -- `cmp esi, edx; jg getlength`: the signed compare skips the two stores.
  if edx.slt esi then predicted
  else
    let edx := bswap edx
    let predicted := store16 predicted (rdi + l.tcpWindow) bx
    store32 predicted (rdi + l.tcpAck) edx

/-- The label `getlength`: subtract the overhead, advance the predicted sequence number
and count down to the next acknowledgement. -/
def getlength (l : Layout) (eax ecx : BitVec 32) (predicted : Mem) (rdi : Nat) :
    BitVec 32 × Mem :=
  let eax := eax - BitVec.ofNat 32 ipOverhead
  if eax = 0 then (eax, predicted)
  else
    let ecx := ecx + eax
    let dl := predicted (rdi + l.ipTtl)
    let ecx := bswap ecx
    let tos := predicted (rdi + l.ipTos) - 1
    let predicted := store8 predicted (rdi + l.ipTos) tos
    let predicted := store32 predicted (rdi + l.tcpSequence) ecx
    -- `jnz done2` reads the flags of the byte decrement: the moves leave them alone.
    if tos ≠ 0 then (eax, predicted)
    else (eax ||| ackMask, store8 predicted (rdi + l.ipTos) dl)

/-- The fall-through of `jnz mismatch2`: accept the packet. `eax` is zero on entry. -/
def accept (l : Layout) (eax : BitVec 32) (src : Mem) (rsi : Nat) (predicted : Mem)
    (rdi : Nat) : BitVec 32 × Mem :=
  let ax := load16 src (rsi + l.ipLength)
  let ecx := load32 src (rsi + l.tcpSequence)
  let eax := setLow16 eax (rol8 ax)
  let ecx := bswap ecx
  let predicted := ackUpdate l src rsi predicted rdi
  getlength l eax ecx predicted rdi

/-- The label `mismatch2`: one more than the first miss in the high half, the payload
length in the low half. -/
def mismatch (l : Layout) (eax ebx ecx : BitVec 32) (src : Mem) (rsi : Nat) : BitVec 32 :=
  let dx := load16 src (rsi + l.ipLength)
  let dx := rol8 dx
  let eax := if ~~~ebx = 0 then bsf eax (~~~ecx) + 33 else bsf eax (~~~ebx) + 1
  let dx := dx - BitVec.ofNat 16 ipOverhead
  let eax := eax <<< 16
  setLow16 eax dx

/-- The instruction sequence that the three client routines share. -/
def clientValidate (l : Layout) (src : Mem) (rsi : Nat) (predicted : Mem) (rdi : Nat) :
    BitVec 32 × Mem :=
  let (eax, ecx) := compareMasks l src rsi predicted rdi
  let ebx := eax
  let eax := eax &&& ecx
  let eax := eax + 1
  if eax ≠ 0 then (mismatch l eax ebx ecx src rsi, predicted)
  else accept l eax src rsi predicted rdi

/-- The length of the dynamic headers: `ptr[0] + ptr[1] + ptr[2]`. -/
def dynOffset (m : Mem) : Nat := (m 0).toNat + (m 1).toNat + (m 2).toNat

/-- `client_validate_header`, on aligned buffers. -/
def clientValidateHeader (receive predicted : Mem) : BitVec 32 × Mem :=
  clientValidate clientLayout receive 0 predicted 0

/-- `client_validate_avsm_header`, on aligned buffers. -/
def clientValidateAvsmHeader (receive predicted : Mem) : BitVec 32 × Mem :=
  clientValidate avsmLayout receive 0 predicted 0

/-- `client_validate_dyn_header`. The header is behind the dynamic header on either side, and
aligned there. -/
def clientValidateDynHeader (receive predicted : Mem) : BitVec 32 × Mem :=
  clientValidate dynLayout receive (dynOffset receive) predicted (dynOffset predicted)

/-! ### The server routine -/

/-- `ACKUPDATE`, the bit of the server's word that tells of a newer acknowledgement. -/
def ackUpdateMask : BitVec 32 := 0x40000000

/-- The compare of `server_validate_avsm_header`, up to `or eax, ebx`: three lanes. The
two don't-care masks are named there and defined nowhere. -/
def serverCompareMasks (dc1 dc2 : BitVec 32) (src predicted : Mem) : BitVec 32 × BitVec 32 :=
  let xmm0 := pcmpeqb (movdqa src 32) (movdqa predicted 32)
  let xmm1 := pcmpeqb (movdqa src 48) (movdqa predicted 48)
  let xmm2 := pcmpeqb (movdqa src 64) (movdqa predicted 64)
  let eax := pmovmskb xmm0
  let ebx := pmovmskb xmm1
  let ecx := pmovmskb xmm2
  let ebx := ebx <<< 16
  let eax := eax ||| dc1
  let ecx := ecx ||| dc2
  let eax := eax ||| ebx
  (eax, ecx)

/-- The repeated acknowledgements of a packet without payload (`eax = 0`), up to the label
`miss2`. The TTL byte counts them down, and another acknowledgement starts again. -/
def serverCountdown (eax edx : BitVec 32) (predicted : Mem) : BitVec 32 × Mem :=
  if eax ≠ 0 then (eax, predicted)
  else if load32 predicted 60 ≠ edx then (eax, store8 predicted 40 2)
  else
    let ttl := predicted 40 - 1
    let predicted := store8 predicted 40 ttl
    if ttl ≠ 0 then (eax, predicted) else (ackMask, store8 predicted 40 3)

/-- The label `miss2`, up to the label `miss1`: the acknowledgement update. -/
def serverAckUpdate (eax edx : BitVec 32) (bx : BitVec 16) (predicted : Mem) :
    BitVec 32 × Mem :=
  let esi := load32 predicted 60
  let edx := bswap edx
  let esi := bswap esi
  let esi := esi - edx
  -- `test esi, esi; jg miss1`: the sign of the 32-bit difference skips the two stores.
  if (0 : BitVec 32).slt esi then (eax, predicted)
  else
    let edx := bswap edx
    let predicted := store16 predicted 66 bx
    let predicted := store32 predicted 60 edx
    (eax ||| ackUpdateMask, predicted)

/-- The fall-through of `jnz mismatch`. `eax` is zero on entry. -/
def serverAccept (eax : BitVec 32) (src predicted : Mem) : BitVec 32 × Mem :=
  let ax := load16 src 34
  let ecx := load32 src 56
  let bx := load16 src 66
  let edx := load32 src 60
  let eax := setLow16 eax (rol8 ax)
  let ecx := bswap ecx
  let eax := eax - BitVec.ofNat 32 ipOverhead
  let ecx := ecx + eax
  let (eax, predicted) := serverCountdown eax edx predicted
  let ecx := bswap ecx
  let (eax, predicted) := serverAckUpdate eax edx bx predicted
  (eax, store32 predicted 56 ecx)

/-- `server_validate_avsm_header`. Its mismatch path is the one of the client routines. -/
def serverValidateAvsmHeader (dc1 dc2 : BitVec 32) (receive predicted : Mem) :
    BitVec 32 × Mem :=
  let (eax, ecx) := serverCompareMasks dc1 dc2 receive predicted
  let ebx := eax
  let eax := eax &&& ecx
  let eax := eax + 1
  if eax ≠ 0 then (mismatch avsmLayout eax ebx ecx receive 0, predicted)
  else serverAccept eax receive predicted

/-! ### Runs of calls -/

/-- A call in a run of calls: the state is the predicted buffer. -/
def dynHeaderStep (predicted receive : Mem) : Option (Mem × BitVec 32) :=
  let (eax, predicted) := clientValidateDynHeader receive predicted
  some (predicted, eax)

end MyTestFiles.Headers
