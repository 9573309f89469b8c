import MyTestFiles.Headers.Validate

/-!
# `MyTestFiles.Proofs.Headers.Compare`: what the byte compare decides

`agrees` says of one of the 64 lanes that its bytes agree or do not matter.
`clientValidate_of_agrees` and `clientValidate_of_miss` turn the instruction sequence
into the two outcomes that it has:

* every lane agrees, and the routine accepts the packet;
* lane `k` is the first that does not, and the routine returns the word of the miss at
  `k`. The predicted buffer keeps its bytes.

`Placed` states where a layout puts the IP header. It holds for the three layouts, and
turns the lanes into the compared bytes of the two headers.

For the dynamic routine, `missLaw_iff` gives the exact inputs on which the miss field of
the returned word tells a match from a mismatch. A mismatch subtracts `IPOVERHEAD` in 16
bits, and a match in 32 bits. So a matching packet whose IP total length is below 40
borrows into the miss field.

The scan for the first lane that does not agree is `toNat_scan` of `Lib.X86`, on the two masks
together. So a statement about a mismatch is one about the first difference (`FirstDiffers`), and
no case distinction over lanes is left.
-/

set_option autoImplicit false

namespace MyTestFiles.Proofs.Headers

open MyTestFiles.Lib.X86
open MyTestFiles.Headers

section Sequence
variable (l : Layout) (src : Mem) (rsi : Nat) (predicted : Mem) (rdi : Nat)

/-- Lane `i` does not matter to the routine. -/
def dontCare (i : Nat) : Bool := if i < 32 then l.dc1.getLsbD i else l.dc2.getLsbD (i - 32)

/-- The bytes of lane `i` agree, or the lane does not matter. -/
def agrees (i : Nat) : Bool :=
  dontCare l i || decide (src (rsi + (l.lanes + i)) = predicted (rdi + (l.lanes + i)))

/-- Bit `i` of two sixteen-byte masks, joined by `shl 16` and `or`, with a constant mask. -/
theorem getLsbD_joined (dc : BitVec 32) (a i : Nat) (hi : i < 32) :
    (pmovmskb (pcmpeqb (movdqa src (rsi + a)) (movdqa predicted (rdi + a))) ||| dc |||
        pmovmskb (pcmpeqb (movdqa src (rsi + (a + 16))) (movdqa predicted (rdi + (a + 16))))
          <<< 16).getLsbD i
      = (dc.getLsbD i || decide (src (rsi + (a + i)) = predicted (rdi + (a + i)))) := by
  rw [BitVec.getLsbD_or, BitVec.getLsbD_or, BitVec.getLsbD_shiftLeft,
    getLsbD_pmovmskb_pcmpeqb, getLsbD_pmovmskb_pcmpeqb]
  by_cases h16 : i < 16
  · simp [h16, Nat.add_assoc, Bool.or_comm]
  · have hs : a + 16 + (i - 16) = a + i := by omega
    simp [h16, hi, show i - 16 < 16 by omega, Nat.add_assoc, hs]

/-- The first mask covers the lanes below 32. -/
theorem getLsbD_compareMasks_fst (i : Nat) (hi : i < 32) :
    (compareMasks l src rsi predicted rdi).1.getLsbD i = agrees l src rsi predicted rdi i := by
  simp only [compareMasks, getLsbD_joined _ _ _ _ _ _ _ hi, agrees, dontCare, if_pos hi]

/-- The second mask covers the lanes from 32 on. -/
theorem getLsbD_compareMasks_snd (i : Nat) (hi : i < 32) :
    (compareMasks l src rsi predicted rdi).2.getLsbD i
      = agrees l src rsi predicted rdi (32 + i) := by
  have h := getLsbD_joined src rsi predicted rdi l.dc2 (l.lanes + 32) i hi
  simp only [Nat.add_assoc] at h
  simp only [compareMasks, agrees, dontCare]
  rw [if_neg (by omega), Nat.add_sub_cancel_left]
  exact h

/-- Every lane agrees: the routine accepts the packet, with `eax` cleared. -/
theorem clientValidate_of_agrees
    (h : ∀ i < 64, agrees l src rsi predicted rdi i = true) :
    clientValidate l src rsi predicted rdi = accept l 0 src rsi predicted rdi := by
  have hz := (and_add_one_eq_zero_iff (getLsbD_compareMasks_fst l src rsi predicted rdi)
    (getLsbD_compareMasks_snd l src rsi predicted rdi)).mpr h
  simp only [clientValidate, hz]
  rfl

/-- The IP total length of the received packet. -/
def ipTotalLength : Nat :=
  256 * (src (rsi + l.ipLength)).toNat + (src (rsi + l.ipLength + 1)).toNat

/-- The payload length: the IP total length less 40, modulo `2 ^ 16`. -/
def payloadLength : Nat := (ipTotalLength l src rsi + (65536 - 40)) % 65536

/-- The word that `mismatch` packs from a scan result. -/
theorem toNat_mismatch {eax ebx ecx : BitVec 32} {k : Nat} (hk : k < 64)
    (hscan : (if ~~~ebx = 0 then bsf eax (~~~ecx) + 33 else bsf eax (~~~ebx) + 1).toNat
      = k + 1) :
    (mismatch l eax ebx ecx src rsi).toNat
      = 65536 * (k + 1) + payloadLength l src rsi := by
  have hlen := toNat_rol8_load16 src (rsi + l.ipLength)
  have hbound := (rol8 (load16 src (rsi + l.ipLength))).isLt
  simp only [mismatch]
  rw [toNat_setLow16, BitVec.toNat_shiftLeft, hscan, BitVec.toNat_sub, hlen,
    Nat.shiftLeft_eq]
  simp only [payloadLength, ipTotalLength, ipOverhead, BitVec.toNat_ofNat]
  omega

/-- Lane `k` is the first that does not agree: the routine returns the word of that miss
and leaves the predicted buffer alone. -/
theorem clientValidate_of_miss {k : Nat} (hk : k < 64)
    (hmiss : agrees l src rsi predicted rdi k = false)
    (hfirst : ∀ j < k, agrees l src rsi predicted rdi j = true) :
    (clientValidate l src rsi predicted rdi).1.toNat
        = 65536 * (k + 1) + payloadLength l src rsi ∧
      (clientValidate l src rsi predicted rdi).2 = predicted := by
  have hlo := getLsbD_compareMasks_fst l src rsi predicted rdi
  have hhi := getLsbD_compareMasks_snd l src rsi predicted rdi
  have hne : ((compareMasks l src rsi predicted rdi).1 &&&
      (compareMasks l src rsi predicted rdi).2) + 1 ≠ 0 := fun h => by
    rw [(and_add_one_eq_zero_iff hlo hhi).mp h k hk] at hmiss
    exact absurd hmiss (by decide)
  have hword := toNat_mismatch l src rsi hk
    (toNat_scan (((compareMasks l src rsi predicted rdi).1 &&&
      (compareMasks l src rsi predicted rdi).2) + 1) hlo hhi hk hmiss hfirst)
  simp only [clientValidate, if_pos hne]
  exact ⟨hword, trivial⟩

/-- The value that `sub eax, 40` leaves in `eax` on an accepted packet. -/
def acceptedLength : BitVec 32 :=
  setLow16 0 (rol8 (load16 src (rsi + l.ipLength))) - BitVec.ofNat 32 ipOverhead

/-- An accepted packet returns the length, with or without the acknowledgement flag. -/
theorem accept_fst :
    (accept l 0 src rsi predicted rdi).1 = acceptedLength l src rsi ∨
      (accept l 0 src rsi predicted rdi).1 = acceptedLength l src rsi ||| ackMask := by
  unfold accept getlength
  dsimp only
  split_ifs
  · exact Or.inl rfl
  · exact Or.inl rfl
  · exact Or.inr rfl

/-- The subtraction is in 32 bits: below 40 it borrows from the high half. -/
theorem toNat_acceptedLength :
    (acceptedLength l src rsi).toNat
      = (ipTotalLength l src rsi + (4294967296 - 40)) % 4294967296 := by
  have hlen := toNat_rol8_load16 src (rsi + l.ipLength)
  have hbound := (rol8 (load16 src (rsi + l.ipLength))).isLt
  simp only [acceptedLength]
  rw [BitVec.toNat_sub, toNat_setLow16, hlen, show (0 : BitVec 32).toNat = 0 from rfl]
  simp only [ipTotalLength, ipOverhead, BitVec.toNat_ofNat]
  omega

/-- The IP total length is a 16-bit number. -/
theorem ipTotalLength_lt : ipTotalLength l src rsi < 65536 := by
  have h0 := (src (rsi + l.ipLength)).isLt
  have h1 := (src (rsi + l.ipLength + 1)).isLt
  unfold ipTotalLength
  omega

end Sequence

/-! ### The miss field -/

/-- `(miss & MISSMASK) >> 16`, the miss field of a returned word. -/
def missField (word : BitVec 32) : Nat := ((word &&& missMask) >>> 16).toNat

/-- The miss field is the high half without its top bit. -/
theorem missField_eq (word : BitVec 32) : missField word = word.toNat / 65536 % 32768 := by
  have hmask : (word &&& missMask) >>> 16 = (word >>> 16) &&& 0x7FFF#32 := by
    rw [BitVec.ushiftRight_and_distrib]
    rfl
  rw [missField, hmask, BitVec.toNat_and, BitVec.toNat_ushiftRight, Nat.shiftRight_eq_div_pow]
  exact Nat.and_two_pow_sub_one_eq_mod _ 15

/-- The acknowledgement flag is outside the miss field. -/
@[simp] theorem missField_or_ackMask (word : BitVec 32) :
    missField (word ||| ackMask) = missField word := by
  have hmask : (word ||| ackMask) &&& missMask = word &&& missMask := by
    rw [BitVec.and_or_distrib_right]
    have hand : ackMask &&& missMask = 0#32 := by decide
    rw [hand, BitVec.or_zero]
  rw [missField, hmask, missField]

/-- The miss field of an accepted packet is zero exactly when its IP total length is at
least 40. -/
theorem missField_accept_eq_zero_iff (l : Layout) (src : Mem) (rsi : Nat) (predicted : Mem)
    (rdi : Nat) :
    missField (accept l 0 src rsi predicted rdi).1 = 0 ↔ 40 ≤ ipTotalLength l src rsi := by
  have hword : missField (accept l 0 src rsi predicted rdi).1
      = missField (acceptedLength l src rsi) := by
    rcases accept_fst l src rsi predicted rdi with h | h <;> rw [h]
    exact missField_or_ackMask _
  have hlt := ipTotalLength_lt l src rsi
  rw [hword, missField_eq, toNat_acceptedLength]
  omega

/-! ### The compared header bytes -/

/-- The compared bytes of the IP and TCP headers. All others are don't-care. -/
def compared (i : Nat) : Bool :=
  i = 0 ∨ i = 9 ∨ (12 ≤ i ∧ i ≤ 27) ∨ i = 32 ∨ i = 33 ∨ (40 ≤ i ∧ i ≤ 47)

/-- Every compared byte is among the first 48. -/
theorem lt_of_compared {i : Nat} (h : compared i = true) : i < 48 := by
  simp only [compared, decide_eq_true_eq] at h
  omega

/-- The headers at `a` and at `b` agree on every compared byte. -/
def Match (receive : Mem) (a : Nat) (predicted : Mem) (b : Nat) : Prop :=
  ∀ i, compared i = true → receive (a + i) = predicted (b + i)

/-- Byte `i` is the first compared byte in which the headers at `a` and at `b` differ. -/
structure FirstDiffers (receive : Mem) (a : Nat) (predicted : Mem) (b i : Nat) : Prop where
  compared : compared i = true
  differs : receive (a + i) ≠ predicted (b + i)
  first : ∀ j < i, Headers.compared j = true → receive (a + j) = predicted (b + j)

/-- Headers that do not match have a first difference. -/
theorem exists_firstDiffers {receive predicted : Mem} {a b : Nat}
    (h : ¬ Match receive a predicted b) : ∃ i, FirstDiffers receive a predicted b i := by
  unfold Match at h
  push Not at h
  refine ⟨Nat.find h, (Nat.find_spec h).1, (Nat.find_spec h).2, fun j hj hc => ?_⟩
  by_contra hne
  exact Nat.find_min h hj ⟨hc, hne⟩

/-- A layout places the IP header `shift` bytes after its first lane: the fields are at
their offsets from there, and the masks leave the compared bytes and the bytes in front
of the header. -/
structure Placed (l : Layout) (shift : Nat) : Prop where
  ipLength : l.ipLength = l.lanes + shift + 2
  tcpSequence : l.tcpSequence = l.lanes + shift + 24
  tcpAck : l.tcpAck = l.lanes + shift + 28
  tcpWindow : l.tcpWindow = l.lanes + shift + 34
  ipTtl : l.ipTtl = l.lanes + shift + 8
  ipTos : l.ipTos = l.lanes + shift + 1
  shift_le : shift ≤ 16
  front : ∀ i < shift, dontCare l i = false
  header : ∀ i < 64, shift ≤ i → dontCare l i = !compared (i - shift)

/-- The dynamic layout has the IP header at its start. -/
theorem placed_dynLayout : Placed dynLayout 0 where
  ipLength := rfl
  tcpSequence := rfl
  tcpAck := rfl
  tcpWindow := rfl
  ipTtl := rfl
  ipTos := rfl
  shift_le := by decide
  front := by decide
  header := by decide

/-- So has the layout of the server. -/
theorem placed_avsmLayout : Placed avsmLayout 0 where
  ipLength := rfl
  tcpSequence := rfl
  tcpAck := rfl
  tcpWindow := rfl
  ipTtl := rfl
  ipTos := rfl
  shift_le := by decide
  front := by decide
  header := by decide

/-- The layout of the client has it behind a frame header. -/
theorem placed_clientLayout : Placed clientLayout 14 where
  ipLength := rfl
  tcpSequence := rfl
  tcpAck := rfl
  tcpWindow := rfl
  ipTtl := rfl
  ipTos := rfl
  shift_le := by decide
  front := by decide
  header := by decide

section Placed
variable {l : Layout} {shift : Nat} (hl : Placed l shift)
variable {src : Mem} {rsi : Nat} {predicted : Mem} {rdi : Nat}
include hl

/-- A lane of the header agrees unless it is compared and its bytes differ. -/
theorem Placed.agrees_header {i : Nat} (hi : shift + i < 64) :
    agrees l src rsi predicted rdi (shift + i) = true ↔
      (compared i = true → src (rsi + (l.lanes + shift) + i)
        = predicted (rdi + (l.lanes + shift) + i)) := by
  rw [agrees, hl.header (shift + i) hi (by omega), Nat.add_sub_cancel_left, Bool.or_eq_true,
    decide_eq_true_eq]
  simp only [Nat.add_assoc]
  cases compared i <;> simp

/-- The lanes up to a first difference agree. -/
theorem Placed.agrees_below
    (hfront : ∀ i < shift, src (rsi + (l.lanes + i)) = predicted (rdi + (l.lanes + i)))
    {k : Nat} (hk : shift + k ≤ 64)
    (hfirst : ∀ j < k, compared j = true → src (rsi + (l.lanes + shift) + j)
      = predicted (rdi + (l.lanes + shift) + j))
    {i : Nat} (hi : i < shift + k) : agrees l src rsi predicted rdi i = true := by
  rcases Nat.lt_or_ge i shift with h | h
  · rw [agrees, hfront i h]
    simp
  · obtain ⟨j, rfl⟩ := Nat.exists_eq_add_of_le h
    exact (hl.agrees_header (by omega)).mpr (hfirst j (by omega))

/-- Matching headers behind equal front bytes are accepted. -/
theorem Placed.clientValidate_of_match
    (hfront : ∀ i < shift, src (rsi + (l.lanes + i)) = predicted (rdi + (l.lanes + i)))
    (h : Match src (rsi + (l.lanes + shift)) predicted (rdi + (l.lanes + shift))) :
    clientValidate l src rsi predicted rdi = accept l 0 src rsi predicted rdi := by
  have hs := hl.shift_le
  exact clientValidate_of_agrees _ _ _ _ _ fun i hi =>
    hl.agrees_below (k := 64 - shift) hfront (by omega) (fun j _ => h j) (by omega)

/-- Headers that differ first at byte `i`, behind equal front bytes, give the word of a
miss at `shift + i` and keep the predicted buffer. -/
theorem Placed.clientValidate_of_firstDiffers
    (hfront : ∀ i < shift, src (rsi + (l.lanes + i)) = predicted (rdi + (l.lanes + i)))
    {i : Nat}
    (h : FirstDiffers src (rsi + (l.lanes + shift)) predicted (rdi + (l.lanes + shift)) i) :
    (clientValidate l src rsi predicted rdi).1.toNat
        = 65536 * (shift + i + 1) + payloadLength l src rsi ∧
      (clientValidate l src rsi predicted rdi).2 = predicted := by
  have hs := hl.shift_le
  have hi := lt_of_compared h.compared
  refine clientValidate_of_miss _ _ _ _ _ (by omega) ?_ fun j hj =>
    hl.agrees_below hfront (by omega) h.first hj
  rw [← Bool.not_eq_true, hl.agrees_header (by omega)]
  exact fun heq => h.differs (heq h.compared)

end Placed

/-! ### The miss law of the dynamic routine -/

/-- The miss law. The miss field is nonzero exactly when a compared byte differs. A first
difference gives one more than its index in the miss field, the payload length modulo
`2 ^ 16` in the low half, and an unchanged predicted buffer. A match gives a zero miss
field. -/
structure MissLaw (receive predicted : Mem) : Prop where
  nonzero_iff : missField (clientValidateDynHeader receive predicted).1 ≠ 0 ↔
    ∃ i, compared i = true ∧
      receive (dynOffset receive + i) ≠ predicted (dynOffset predicted + i)
  first : ∀ i, FirstDiffers receive (dynOffset receive) predicted (dynOffset predicted) i →
    missField (clientValidateDynHeader receive predicted).1 = i + 1 ∧
    (clientValidateDynHeader receive predicted).1.toNat % 65536
      = payloadLength dynLayout receive (dynOffset receive) ∧
    (clientValidateDynHeader receive predicted).2 = predicted
  zero : Match receive (dynOffset receive) predicted (dynOffset predicted) →
    missField (clientValidateDynHeader receive predicted).1 = 0

section Dynamic
variable {receive predicted : Mem}

/-- On a match the miss field is zero exactly when the IP total length is at least 40. -/
theorem missField_of_match
    (h : Match receive (dynOffset receive) predicted (dynOffset predicted)) :
    missField (clientValidateDynHeader receive predicted).1 = 0 ↔
      40 ≤ ipTotalLength dynLayout receive (dynOffset receive) := by
  have haccept : clientValidateDynHeader receive predicted
      = accept dynLayout 0 receive (dynOffset receive) predicted (dynOffset predicted) :=
    placed_dynLayout.clientValidate_of_match (fun i hi => absurd hi (by omega)) h
  rw [haccept]
  exact missField_accept_eq_zero_iff _ _ _ _ _

/-- The word and the buffer of a first difference. -/
theorem clientValidateDynHeader_of_firstDiffers {i : Nat}
    (h : FirstDiffers receive (dynOffset receive) predicted (dynOffset predicted) i) :
    missField (clientValidateDynHeader receive predicted).1 = i + 1 ∧
      (clientValidateDynHeader receive predicted).1.toNat % 65536
        = payloadLength dynLayout receive (dynOffset receive) ∧
      (clientValidateDynHeader receive predicted).2 = predicted := by
  obtain ⟨hword, hkeep⟩ := placed_dynLayout.clientValidate_of_firstDiffers
    (fun i hi => absurd hi (by omega)) h
  have hi := lt_of_compared h.compared
  have hp : payloadLength dynLayout receive (dynOffset receive) < 65536 :=
    Nat.mod_lt _ (by omega)
  have hword' : (clientValidateDynHeader receive predicted).1.toNat
      = 65536 * (0 + i + 1) + payloadLength dynLayout receive (dynOffset receive) := hword
  refine ⟨?_, by omega, hkeep⟩
  rw [missField_eq, hword']
  omega

end Dynamic

/-- The miss law holds exactly when a compared byte differs or the received IP total
length is at least 40. -/
theorem missLaw_iff (receive predicted : Mem) :
    MissLaw receive predicted ↔
      (¬ Match receive (dynOffset receive) predicted (dynOffset predicted) ∨
        40 ≤ ipTotalLength dynLayout receive (dynOffset receive)) := by
  constructor
  · intro h
    by_cases hm : Match receive (dynOffset receive) predicted (dynOffset predicted)
    · exact Or.inr ((missField_of_match hm).mp (h.zero hm))
    · exact Or.inl hm
  · intro h
    refine ⟨⟨fun hne => ?_, ?_⟩, fun i hi => clientValidateDynHeader_of_firstDiffers hi,
      fun hm => (missField_of_match hm).mpr (h.resolve_left (not_not_intro hm))⟩
    -- A result that is not 0 means that a byte differs.
    · by_contra hall
      push Not at hall
      have hm : Match receive (dynOffset receive) predicted (dynOffset predicted) := hall
      exact hne ((missField_of_match hm).mpr (h.resolve_left (not_not_intro hm)))
    · rintro ⟨i, hc, hne⟩
      obtain ⟨k, hk⟩ := exists_firstDiffers
        fun hm : Match receive (dynOffset receive) predicted (dynOffset predicted) =>
          hne (hm i hc)
      rw [(clientValidateDynHeader_of_firstDiffers hk).1]
      omega

/-- A packet behind a 16-byte dynamic header, with the IP total length 39. -/
def shortPacket : Mem := fun i =>
  if i = 0 then 16 else if i = 16 then 0x45 else if i = 19 then 39 else 0

/-- The short packet matches itself, and its miss field is not zero. -/
theorem not_missLaw_shortPacket : ¬ MissLaw shortPacket shortPacket := fun h => by
  have hlen := (missField_of_match fun i _ => rfl).mp (h.zero fun i _ => rfl)
  exact absurd hlen (by decide)

end MyTestFiles.Proofs.Headers
