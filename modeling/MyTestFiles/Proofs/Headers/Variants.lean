import MyTestFiles.Proofs.Headers.Compare

/-!
# `MyTestFiles.Proofs.Headers.Variants`: three routines, one function of the headers

The three client routines place the same IP and TCP headers at different addresses.
`accept_congr` runs the accept path of two placed layouts side by side on the same header
bytes: the words are equal, and the updated headers hold the same bytes.
`Placed.clientValidate_snd_of_outside` says that a routine writes nothing outside them.

`clientValidators_agree` puts the two outcomes of `Compare` and this run together.

* `SameBytes` relates two memories that hold the same bytes at two places, and the loads and
  stores of `Lib.X86` respect it. So the two accept paths are compared instruction by instruction,
  and neither is computed.
* A mismatch answers with the index of the first byte that differs. The routine for Ethernet
  frames counts from the start of the frame, so its index is larger by the 14 bytes of the frame
  header.
* That routine compares the frame header as well, so the statement about all three asks that the
  two frame headers agree.

The dynamic header of the buffers is arbitrary here. What the routine compares lies behind it, at
the place that its length bytes give.
-/

set_option autoImplicit false

namespace MyTestFiles.Proofs.Headers

open MyTestFiles.Lib.X86
open MyTestFiles.Headers

section Accept
variable {l l' : Layout} {shift shift' : Nat} (hl : Placed l shift) (hl' : Placed l' shift')
variable {src src' predicted predicted' : Mem} {rsi rsi' rdi rdi' n : Nat}

/-- A field of the header, as an address from the start of the header. -/
theorem Placed.field_address {k a : Nat} (h : a = l.lanes + shift + k) (p : Nat) :
    p + a = p + (l.lanes + shift) + k := by omega

include hl hl'

/-- The acknowledgement update on the same headers. -/
theorem ackUpdate_congr (hn : 36 ≤ n)
    (hs : SameBytes n src (rsi + (l.lanes + shift)) src' (rsi' + (l'.lanes + shift')))
    (hp : SameBytes n predicted (rdi + (l.lanes + shift))
      predicted' (rdi' + (l'.lanes + shift'))) :
    SameBytes n (ackUpdate l src rsi predicted rdi) (rdi + (l.lanes + shift))
      (ackUpdate l' src' rsi' predicted' rdi') (rdi' + (l'.lanes + shift')) := by
  simp only [ackUpdate, Placed.field_address hl.tcpAck, Placed.field_address hl'.tcpAck,
    Placed.field_address hl.tcpWindow, Placed.field_address hl'.tcpWindow]
  rw [hs.load32_eq (by omega), hs.load16_eq (by omega), hp.load32_eq (by omega)]
  split
  · exact hp
  · exact (hp.store16 34 _).store32 28 _

/-- The steps from `getlength` on, on the same headers. -/
theorem getlength_congr (hn : 36 ≤ n) (eax ecx : BitVec 32)
    (hp : SameBytes n predicted (rdi + (l.lanes + shift))
      predicted' (rdi' + (l'.lanes + shift'))) :
    (getlength l eax ecx predicted rdi).1 = (getlength l' eax ecx predicted' rdi').1 ∧
      SameBytes n (getlength l eax ecx predicted rdi).2 (rdi + (l.lanes + shift))
        (getlength l' eax ecx predicted' rdi').2 (rdi' + (l'.lanes + shift')) := by
  simp only [getlength, Placed.field_address hl.ipTtl, Placed.field_address hl'.ipTtl,
    Placed.field_address hl.ipTos, Placed.field_address hl'.ipTos,
    Placed.field_address hl.tcpSequence, Placed.field_address hl'.tcpSequence]
  rw [hp 1 (by omega), hp 8 (by omega)]
  split_ifs
  · exact ⟨rfl, hp⟩
  · exact ⟨rfl, (hp.store8 1 _).store32 24 _⟩
  · exact ⟨rfl, ((hp.store8 1 _).store32 24 _).store8 1 _⟩

/-- The accept path on the same headers: the same word and the same updated headers. -/
theorem accept_congr (hn : 36 ≤ n) (eax : BitVec 32)
    (hs : SameBytes n src (rsi + (l.lanes + shift)) src' (rsi' + (l'.lanes + shift')))
    (hp : SameBytes n predicted (rdi + (l.lanes + shift))
      predicted' (rdi' + (l'.lanes + shift'))) :
    (accept l eax src rsi predicted rdi).1 = (accept l' eax src' rsi' predicted' rdi').1 ∧
      SameBytes n (accept l eax src rsi predicted rdi).2 (rdi + (l.lanes + shift))
        (accept l' eax src' rsi' predicted' rdi').2 (rdi' + (l'.lanes + shift')) := by
  simp only [accept, Placed.field_address hl.ipLength, Placed.field_address hl'.ipLength,
    Placed.field_address hl.tcpSequence, Placed.field_address hl'.tcpSequence]
  rw [hs.load16_eq (by omega), hs.load32_eq (by omega)]
  exact getlength_congr hl hl' hn _ _ (ackUpdate_congr hl hl' hn hs hp)

end Accept

section Outcome
variable {l l' : Layout} {shift shift' : Nat} (hl : Placed l shift) (hl' : Placed l' shift')
variable {src src' predicted predicted' : Mem} {n : Nat} (rsi rsi' rdi rdi' : Nat)

/-- The acknowledgement update writes only header bytes. -/
theorem Placed.ackUpdate_of_outside (hl : Placed l shift) {i : Nat}
    (hi : i < rdi + (l.lanes + shift) ∨ rdi + (l.lanes + shift) + 36 ≤ i) :
    ackUpdate l src rsi predicted rdi i = predicted i := by
  simp only [ackUpdate, Placed.field_address hl.tcpAck, Placed.field_address hl.tcpWindow]
  split
  · rfl
  · rw [store32_of_ne (by omega), store16_of_ne (by omega)]

/-- The steps from `getlength` on write only header bytes. -/
theorem Placed.getlength_snd_of_outside (hl : Placed l shift) (eax ecx : BitVec 32) {i : Nat}
    (hi : i < rdi + (l.lanes + shift) ∨ rdi + (l.lanes + shift) + 36 ≤ i) :
    (getlength l eax ecx predicted rdi).2 i = predicted i := by
  simp only [getlength, Placed.field_address hl.ipTos, Placed.field_address hl.tcpSequence]
  split_ifs <;> dsimp only
  · rw [store32_of_ne (by omega), store8_of_ne (by omega)]
  · rw [store8_of_ne (by omega), store32_of_ne (by omega), store8_of_ne (by omega)]

/-- A routine writes only header bytes. -/
theorem Placed.clientValidate_snd_of_outside (hl : Placed l shift) {i : Nat}
    (hi : i < rdi + (l.lanes + shift) ∨ rdi + (l.lanes + shift) + 36 ≤ i) :
    (clientValidate l src rsi predicted rdi).2 i = predicted i := by
  simp only [clientValidate]
  split_ifs
  · rfl
  · exact (hl.getlength_snd_of_outside _ _ _ hi).trans (hl.ackUpdate_of_outside _ _ hi)

include hl hl'

/-- The payload length of the same headers. -/
theorem payloadLength_congr (hn : 4 ≤ n)
    (hs : SameBytes n src (rsi + (l.lanes + shift)) src' (rsi' + (l'.lanes + shift'))) :
    payloadLength l src rsi = payloadLength l' src' rsi' := by
  have hlen : ipTotalLength l src rsi = ipTotalLength l' src' rsi' := by
    simp only [ipTotalLength, Placed.field_address hl.ipLength,
      Placed.field_address hl'.ipLength]
    rw [hs 2 (by omega), Nat.add_assoc _ 2 1, Nat.add_assoc _ 2 1, hs (2 + 1) (by omega)]
  rw [payloadLength, payloadLength, hlen]

/-- Two routines on the same headers, each behind equal front bytes. A match gives the
same word. A mismatch gives words whose miss indices differ by the shifts. The predicted
headers end with the same bytes. -/
theorem clientValidate_congr (hn : 48 ≤ n)
    (hs : SameBytes n src (rsi + (l.lanes + shift)) src' (rsi' + (l'.lanes + shift')))
    (hp : SameBytes n predicted (rdi + (l.lanes + shift))
      predicted' (rdi' + (l'.lanes + shift')))
    (hfront : ∀ i < shift, src (rsi + (l.lanes + i)) = predicted (rdi + (l.lanes + i)))
    (hfront' : ∀ i < shift', src' (rsi' + (l'.lanes + i)) = predicted' (rdi' + (l'.lanes + i))) :
    (Match src (rsi + (l.lanes + shift)) predicted (rdi + (l.lanes + shift)) →
      (clientValidate l src rsi predicted rdi).1
        = (clientValidate l' src' rsi' predicted' rdi').1) ∧
    (¬ Match src (rsi + (l.lanes + shift)) predicted (rdi + (l.lanes + shift)) →
      (clientValidate l src rsi predicted rdi).1.toNat + 65536 * shift'
        = (clientValidate l' src' rsi' predicted' rdi').1.toNat + 65536 * shift) ∧
    SameBytes n (clientValidate l src rsi predicted rdi).2 (rdi + (l.lanes + shift))
      (clientValidate l' src' rsi' predicted' rdi').2 (rdi' + (l'.lanes + shift')) := by
  have hlen := payloadLength_congr hl hl' rsi rsi' (by omega) hs
  by_cases hm : Match src (rsi + (l.lanes + shift)) predicted (rdi + (l.lanes + shift))
  · -- the compared bytes are the same on both sides
    have hm' : Match src' (rsi' + (l'.lanes + shift')) predicted' (rdi' + (l'.lanes + shift')) :=
      fun i hc => by
        have hi := lt_of_compared hc
        rw [← hs i (by omega), ← hp i (by omega), hm i hc]
    rw [hl.clientValidate_of_match hfront hm, hl'.clientValidate_of_match hfront' hm']
    obtain ⟨hword, hbytes⟩ := accept_congr hl hl' (by omega) 0 hs hp
    exact ⟨fun _ => hword, fun h => absurd hm h, hbytes⟩
  · -- so is the first byte that differs, and the miss index counts from the lanes
    obtain ⟨i, hi⟩ := exists_firstDiffers hm
    have hi48 := lt_of_compared hi.compared
    have hi' : FirstDiffers src' (rsi' + (l'.lanes + shift'))
        predicted' (rdi' + (l'.lanes + shift')) i := by
      refine ⟨hi.compared, ?_, fun j hj hc => ?_⟩
      · rw [← hs i (by omega), ← hp i (by omega)]
        exact hi.differs
      · rw [← hs j (by omega), ← hp j (by omega)]
        exact hi.first j hj hc
    obtain ⟨hword, hkeep⟩ := hl.clientValidate_of_firstDiffers hfront hi
    obtain ⟨hword', hkeep'⟩ := hl'.clientValidate_of_firstDiffers hfront' hi'
    refine ⟨fun h => absurd h hm, fun _ => ?_, ?_⟩
    · rw [hword, hword', hlen]
      omega
    · rw [hkeep, hkeep']
      exact hp

end Outcome

/-- The three client routines are one function of the headers. The buffers `ra` and `pa`
hold the headers at 32, `rd` and `pd` hold the same 64 bytes behind their dynamic headers,
and `re` and `pe` hold the same bytes behind equal 14-byte Ethernet headers. -/
theorem clientValidators_agree (ra pa rd pd re pe : Mem)
    (hrd : SameBytes 64 ra 32 rd (dynOffset rd)) (hpd : SameBytes 64 pa 32 pd (dynOffset pd))
    (hre : SameBytes 50 ra 32 re 14) (hpe : SameBytes 50 pa 32 pe 14)
    (heth : SameBytes 14 re 0 pe 0) :
    (clientValidateDynHeader rd pd).1 = (clientValidateAvsmHeader ra pa).1 ∧
    SameBytes 64 (clientValidateAvsmHeader ra pa).2 32
      (clientValidateDynHeader rd pd).2 (dynOffset pd) ∧
    (Match ra 32 pa 32 →
      (clientValidateHeader re pe).1 = (clientValidateAvsmHeader ra pa).1) ∧
    (¬ Match ra 32 pa 32 →
      (clientValidateHeader re pe).1.toNat
        = (clientValidateAvsmHeader ra pa).1.toNat + 65536 * 14) ∧
    SameBytes 50 (clientValidateAvsmHeader ra pa).2 32 (clientValidateHeader re pe).2 14 ∧
    (∀ i, i < 32 ∨ 68 ≤ i → (clientValidateAvsmHeader ra pa).2 i = pa i) ∧
    (∀ i, i < dynOffset pd ∨ dynOffset pd + 36 ≤ i →
      (clientValidateDynHeader rd pd).2 i = pd i) ∧
    (∀ i, i < 14 ∨ 50 ≤ i → (clientValidateHeader re pe).2 i = pe i) := by
  have hnone : ∀ {P : Nat → Prop}, ∀ i < 0, P i := fun i hi => absurd hi (by omega)
  -- the plain routine against the dynamic one, and then against the one behind an Ethernet header
  obtain ⟨dmatch, dmiss, dbytes⟩ :=
    clientValidate_congr placed_avsmLayout placed_dynLayout 0 (dynOffset rd) 0 (dynOffset pd)
      (by omega) hrd hpd hnone hnone
  obtain ⟨ematch, emiss, ebytes⟩ :=
    clientValidate_congr placed_avsmLayout placed_clientLayout 0 0 0 0 (by omega) hre hpe
      hnone (fun i hi => by simpa [clientLayout] using heth i hi)
  refine ⟨?_, dbytes, fun h => (ematch h).symm, fun h => ?_, ebytes, fun i hi => ?_,
    fun i hi => ?_, fun i hi => ?_⟩
  · by_cases hm : Match ra 32 pa 32
    · exact (dmatch hm).symm
    · exact BitVec.eq_of_toNat_eq (dmiss hm).symm
  · exact (emiss h).symm
  · exact placed_avsmLayout.clientValidate_snd_of_outside 0 0 hi
  · exact placed_dynLayout.clientValidate_snd_of_outside (dynOffset rd) (dynOffset pd) hi
  · exact placed_clientLayout.clientValidate_snd_of_outside 0 0 hi

/-- The three routines on empty headers, with a dynamic header of 16 bytes in front, which keeps
the header behind it aligned. -/
theorem clientValidators_agree_zero :
    (clientValidateDynHeader (fun i => if i = 0 then 16 else 0)
        (fun i => if i = 0 then 16 else 0)).1
        = (clientValidateAvsmHeader (fun _ => 0) (fun _ => 0)).1 ∧
      (clientValidateHeader (fun _ => 0) (fun _ => 0)).1
        = (clientValidateAvsmHeader (fun _ => 0) (fun _ => 0)).1 := by
  have hdyn : SameBytes 64 (fun _ => 0) 32 (fun i => if i = 0 then 16 else 0)
      (dynOffset fun i => if i = 0 then 16 else 0) := by
    intro k _
    simp [dynOffset]
  obtain ⟨hword, -, hmatch, -⟩ := clientValidators_agree (fun _ => 0) (fun _ => 0)
    (fun i => if i = 0 then 16 else 0) (fun i => if i = 0 then 16 else 0) (fun _ => 0) (fun _ => 0)
    hdyn hdyn (fun _ _ => rfl) (fun _ _ => rfl) (fun _ _ => rfl)
  exact ⟨hword, hmatch fun _ _ => rfl⟩

end MyTestFiles.Proofs.Headers
