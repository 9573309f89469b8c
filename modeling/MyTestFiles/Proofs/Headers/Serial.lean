import MyTestFiles.Proofs.Headers.Schedule

/-!
# `MyTestFiles.Proofs.Headers.Serial`: the order of acknowledgement numbers

A validator takes over the received acknowledgement and window when the received number is
not behind the predicted one. `FollowsRule` is the rule in serial-number order: the sign of
the 32-bit difference decides. The server routine subtracts and tests, which is the rule
(`serverValidateAvsmHeader_followsRule`). The client routines compare the two numbers as
signed integers, and the two orders part where the difference overflows
(`slt_iff_serial`).

`ack_update` puts the sides together: the server follows the rule on every accepted packet,
a client routine exactly on those whose difference does not overflow.

`NotBehind` is the order of the rule: the difference of the two numbers, as a signed number, is
not negative. `zero_slt_iff` has the test of the server for it, and `slt_iff_of_not_overflow` and
`slt_iff_of_overflow` the comparison of the clients in its two cases.

`ack_update_half` is the counterexample: two matching headers whose numbers are half of the number
space apart, where a client routine takes over a number that is behind.
-/

set_option autoImplicit false

namespace MyTestFiles.Proofs.Headers

open MyTestFiles.Lib.X86
open MyTestFiles.Headers

/-! ### Serial-number order -/

/-- The received number is not behind the predicted one: the 32-bit difference, taken as
signed, is at most zero. -/
def NotBehind (predicted received : BitVec 32) : Prop := (predicted - received).toInt ≤ 0

instance (predicted received : BitVec 32) : Decidable (NotBehind predicted received) :=
  inferInstanceAs (Decidable (_ ≤ _))

section Order
variable {x y : BitVec 32}

/-- The sign test of the server is the order. -/
theorem zero_slt_iff (x y : BitVec 32) : (0 : BitVec 32).slt (x - y) = true ↔ ¬ NotBehind x y := by
  rw [BitVec.slt_iff_toInt_lt, NotBehind]
  show 0 < (x - y).toInt ↔ _
  omega

/-- Without overflow the signed compare is the order. -/
theorem slt_iff_of_not_overflow (h : ¬ x.ssubOverflow y) :
    y.slt x = true ↔ ¬ NotBehind x y := by
  rw [BitVec.slt_iff_toInt_lt, NotBehind, BitVec.toInt_sub_of_not_ssubOverflow h]
  omega

/-- With overflow the signed compare is the opposite of the order. -/
theorem slt_iff_of_overflow (h : x.ssubOverflow y) : y.slt x = true ↔ NotBehind x y := by
  have hx := x.toInt_lt
  have hx' := x.le_toInt
  have hy := y.toInt_lt
  have hy' := y.le_toInt
  have hwrap : (x - y).toInt = (x.toInt - y.toInt).bmod 4294967296 := BitVec.toInt_sub
  have hover : 2147483648 ≤ x.toInt - y.toInt ∨ x.toInt - y.toInt < -2147483648 := by
    simpa [BitVec.ssubOverflow] using h
  rw [BitVec.slt_iff_toInt_lt, NotBehind, hwrap]
  -- the difference is off by one modulus
  rw [Int.bmod_def]
  split_ifs <;> omega

/-- The signed compare is the order exactly when the difference does not overflow. -/
theorem slt_iff_serial : (y.slt x = true ↔ ¬ NotBehind x y) ↔ ¬ x.ssubOverflow y := by
  constructor
  · intro h hover
    exact iff_not_self ((slt_iff_of_overflow hover).symm.trans h)
  · exact slt_iff_of_not_overflow

end Order

/-! ### The rule -/

/-- The acknowledgement number in a header. -/
def ackNumber (m : Mem) (a : Nat) : BitVec 32 := bswap (load32 m a)

/-- The header `after` a call has the acknowledgement and the window of `m`. -/
def TakesFrom (l : Layout) (m : Mem) (a : Nat) (after : Mem) (rdi : Nat) : Prop :=
  load32 after (rdi + l.tcpAck) = load32 m (a + l.tcpAck) ∧
    load16 after (rdi + l.tcpWindow) = load16 m (a + l.tcpWindow)

/-- The rule of the acknowledgement update: the received acknowledgement and window when
the received number is not behind, and else the predicted ones. -/
def FollowsRule (l : Layout) (src : Mem) (rsi : Nat) (predicted : Mem) (rdi : Nat)
    (after : Mem) : Prop :=
  (NotBehind (ackNumber predicted (rdi + l.tcpAck)) (ackNumber src (rsi + l.tcpAck)) →
    TakesFrom l src rsi after rdi) ∧
  (¬ NotBehind (ackNumber predicted (rdi + l.tcpAck)) (ackNumber src (rsi + l.tcpAck)) →
    TakesFrom l predicted rdi after rdi)

/-- The difference of the predicted and the received number overflows. -/
def Overflows (l : Layout) (src : Mem) (rsi : Nat) (predicted : Mem) (rdi : Nat) : Prop :=
  (ackNumber predicted (rdi + l.tcpAck)).ssubOverflow (ackNumber src (rsi + l.tcpAck))

instance (l : Layout) (src : Mem) (rsi : Nat) (predicted : Mem) (rdi : Nat) :
    Decidable (Overflows l src rsi predicted rdi) :=
  inferInstanceAs (Decidable (_ = true))

/-! ### The client routines -/

section Client
variable {l : Layout} {shift : Nat} (hl : Placed l shift)
variable (src predicted : Mem) (rsi rdi : Nat)
include hl

/-- A store of the acknowledgement number leaves the window. -/
theorem Placed.load16_store32 (m : Mem) (w : BitVec 32) :
    load16 (store32 m (rdi + l.tcpAck) w) (rdi + l.tcpWindow) =
      load16 m (rdi + l.tcpWindow) := by
  have hack := hl.tcpAck
  have hwindow := hl.tcpWindow
  rw [load16, store32_of_ne (by omega), store32_of_ne (by omega), load16]

/-- The steps from `getlength` on leave the acknowledgement and the window. -/
theorem Placed.takesFrom_getlength (eax ecx : BitVec 32) :
    TakesFrom l predicted rdi (getlength l eax ecx predicted rdi).2 rdi := by
  have hkeep : ∀ i, rdi + (l.lanes + shift) + 28 ≤ i →
      (getlength l eax ecx predicted rdi).2 i = predicted i := by
    intro i hi
    simp only [getlength, Placed.field_address hl.ipTos, Placed.field_address hl.tcpSequence]
    split_ifs <;> dsimp only
    · rw [store32_of_ne (by omega), store8_of_ne (by omega)]
    · rw [store8_of_ne (by omega), store32_of_ne (by omega), store8_of_ne (by omega)]
  have hack := hl.tcpAck
  have hwindow := hl.tcpWindow
  constructor
  · exact load32_of_same fun i hi _ => hkeep i (by omega)
  · rw [load16, hkeep _ (by omega), hkeep _ (by omega), load16]

omit hl in
/-- The signed compare decides where the acknowledgement update takes its values from. -/
theorem ackUpdate_of_slt
    (h : (ackNumber src (rsi + l.tcpAck)).slt (ackNumber predicted (rdi + l.tcpAck)) = true) :
    ackUpdate l src rsi predicted rdi = predicted := if_pos h

/-- Where the routine does not find the number behind, it takes over both fields. -/
theorem Placed.ackUpdate_of_not_slt
    (h : ¬ (ackNumber src (rsi + l.tcpAck)).slt (ackNumber predicted (rdi + l.tcpAck)) = true) :
    TakesFrom l src rsi (ackUpdate l src rsi predicted rdi) rdi := by
  have hstores : ackUpdate l src rsi predicted rdi =
      store32 (store16 predicted (rdi + l.tcpWindow) (load16 src (rsi + l.tcpWindow)))
        (rdi + l.tcpAck) (bswap (bswap (load32 src (rsi + l.tcpAck)))) := if_neg h
  rw [hstores, bswap_bswap, TakesFrom]
  constructor
  · exact load32_store32 _ _ _
  · rw [hl.load16_store32, load16_store16]

/-- What an accepted packet leaves in the header, by the signed compare. -/
theorem Placed.takesFrom_accept (eax : BitVec 32) :
    TakesFrom l
      (if (ackNumber src (rsi + l.tcpAck)).slt (ackNumber predicted (rdi + l.tcpAck)) then predicted
        else src)
      (if (ackNumber src (rsi + l.tcpAck)).slt (ackNumber predicted (rdi + l.tcpAck)) then rdi
        else rsi)
      (accept l eax src rsi predicted rdi).2 rdi := by
  generalize hmid : ackUpdate l src rsi predicted rdi = mid
  have htail : TakesFrom l mid rdi (accept l eax src rsi predicted rdi).2 rdi := by
    rw [← hmid]
    exact hl.takesFrom_getlength _ _ _ _
  by_cases h : (ackNumber src (rsi + l.tcpAck)).slt (ackNumber predicted (rdi + l.tcpAck)) = true
  · rw [if_pos h, if_pos h]
    rw [← hmid, ackUpdate_of_slt _ _ _ _ h] at htail
    exact htail
  · rw [if_neg h, if_neg h]
    have hmidTakes := hl.ackUpdate_of_not_slt _ _ _ _ h
    rw [hmid] at hmidTakes
    exact ⟨htail.1.trans hmidTakes.1, htail.2.trans hmidTakes.2⟩

/-- A client routine follows the rule exactly when the difference does not overflow. -/
theorem Placed.followsRule_accept_iff (eax : BitVec 32) :
    FollowsRule l src rsi predicted rdi (accept l eax src rsi predicted rdi).2 ↔
      ¬ Overflows l src rsi predicted rdi := by
  have htakes := hl.takesFrom_accept src predicted rsi rdi eax
  rw [FollowsRule, Overflows, ← slt_iff_serial]
  generalize accept l eax src rsi predicted rdi = result at htakes ⊢
  constructor
  · intro hrule
    by_contra hpart
    -- where the two orders part, the header has the received and the predicted number
    have hsame : load32 src (rsi + l.tcpAck) = load32 predicted (rdi + l.tcpAck) := by
      by_cases hslt :
          (ackNumber src (rsi + l.tcpAck)).slt (ackNumber predicted (rdi + l.tcpAck)) = true
      · rw [if_pos hslt, if_pos hslt] at htakes
        have hnot : NotBehind (ackNumber predicted (rdi + l.tcpAck))
            (ackNumber src (rsi + l.tcpAck)) := by
          by_contra hbehind
          exact hpart ⟨fun _ => hbehind, fun _ => hslt⟩
        exact (hrule.1 hnot).1.symm.trans htakes.1
      · rw [if_neg hslt, if_neg hslt] at htakes
        have hbehind : ¬ NotBehind (ackNumber predicted (rdi + l.tcpAck))
            (ackNumber src (rsi + l.tcpAck)) := by
          intro hnot
          exact hpart ⟨fun h => absurd h hslt, fun h => absurd hnot h⟩
        exact htakes.1.symm.trans (hrule.2 hbehind).1
    -- equal numbers do not overflow
    refine hpart (slt_iff_of_not_overflow ?_)
    rw [ackNumber, ackNumber, hsame]
    simp [BitVec.ssubOverflow]
  · intro hiff
    constructor
    · intro hnot
      have hslt := fun h => hiff.mp h hnot
      rwa [if_neg hslt, if_neg hslt] at htakes
    · intro hbehind
      have hslt := hiff.mpr hbehind
      rwa [if_pos hslt, if_pos hslt] at htakes

end Client

/-! ### The server routine -/

section Server
variable {dc1 dc2 : BitVec 32} {receive predicted : Mem}

/-- The compare of the server routine passes: every byte of its lanes agrees or does not
matter. -/
def ServerMatch (dc1 dc2 : BitVec 32) (receive predicted : Mem) : Prop :=
  ((serverCompareMasks dc1 dc2 receive predicted).1 &&&
    (serverCompareMasks dc1 dc2 receive predicted).2) + 1 = 0

instance : Decidable (ServerMatch dc1 dc2 receive predicted) :=
  inferInstanceAs (Decidable (_ = _))

/-- The countdown writes the TTL byte only. -/
theorem serverCountdown_snd_of_ne (eax edx : BitVec 32) {i : Nat} (hi : i ≠ 40) :
    (serverCountdown eax edx predicted).2 i = predicted i := by
  simp only [serverCountdown]
  split_ifs <;> dsimp only
  · exact store8_of_ne hi
  · exact store8_of_ne hi
  · rw [store8_of_ne hi, store8_of_ne hi]

/-- The countdown leaves the predicted acknowledgement number. -/
theorem load32_serverCountdown (eax edx : BitVec 32) :
    load32 (serverCountdown eax edx predicted).2 60 = load32 predicted 60 :=
  load32_of_same fun _ hi _ => serverCountdown_snd_of_ne eax edx (by omega)

/-- The countdown leaves the predicted window. -/
theorem load16_serverCountdown (eax edx : BitVec 32) :
    load16 (serverCountdown eax edx predicted).2 66 = load16 predicted 66 := by
  rw [load16, serverCountdown_snd_of_ne eax edx (by omega),
    serverCountdown_snd_of_ne eax edx (by omega), load16]

/-- The acknowledgement update of the server is the rule. -/
theorem serverAckUpdate_followsRule (receive predicted : Mem) (eax : BitVec 32) :
    FollowsRule avsmLayout receive 0 predicted 0
      (serverAckUpdate eax (load32 receive 60) (load16 receive 66) predicted).2 := by
  have htest := zero_slt_iff (ackNumber predicted 60) (ackNumber receive 60)
  show (NotBehind (ackNumber predicted 60) (ackNumber receive 60) → _) ∧
    (¬ NotBehind (ackNumber predicted 60) (ackNumber receive 60) → _)
  constructor
  · -- not behind: the two fields come from the packet
    intro hnot
    have hstores : (serverAckUpdate eax (load32 receive 60) (load16 receive 66) predicted).2 =
        store32 (store16 predicted 66 (load16 receive 66)) 60
          (bswap (bswap (load32 receive 60))) :=
      congrArg Prod.snd (if_neg fun hslt => htest.mp hslt hnot)
    rw [hstores, bswap_bswap, TakesFrom, Nat.zero_add, Nat.zero_add]
    constructor
    · exact load32_store32 _ _ _
    · have hkeep := placed_avsmLayout.load16_store32 0
        (store16 predicted 66 (load16 receive 66)) (load32 receive 60)
      rw [Nat.zero_add, Nat.zero_add] at hkeep
      exact hkeep.trans (load16_store16 _ _ _)
  · intro hbehind
    have hkeep : (serverAckUpdate eax (load32 receive 60) (load16 receive 66) predicted).2 =
        predicted := congrArg Prod.snd (if_pos (htest.mpr hbehind))
    rw [hkeep]
    exact ⟨rfl, rfl⟩

/-- The server routine follows the rule on every packet it accepts. -/
theorem serverValidateAvsmHeader_followsRule (h : ServerMatch dc1 dc2 receive predicted) :
    FollowsRule avsmLayout receive 0 predicted 0
      (serverValidateAvsmHeader dc1 dc2 receive predicted).2 := by
  have haccept : serverValidateAvsmHeader dc1 dc2 receive predicted =
      serverAccept 0 receive predicted := by
    exact (if_neg (not_not_intro h)).trans (congrArg (serverAccept · receive predicted) h)
  rw [haccept]
  generalize hcount : serverCountdown
    (setLow16 0 (rol8 (load16 receive 34)) - BitVec.ofNat 32 ipOverhead) (load32 receive 60)
    predicted = mid
  have hmid32 : load32 mid.2 60 = load32 predicted 60 := by
    rw [← hcount]
    exact load32_serverCountdown _ _
  have hmid16 : load16 mid.2 66 = load16 predicted 66 := by
    rw [← hcount]
    exact load16_serverCountdown _ _
  have hupdate := serverAckUpdate_followsRule receive mid.2 mid.1
  generalize hafter : serverAckUpdate mid.1 (load32 receive 60) (load16 receive 66) mid.2 = after
    at hupdate
  -- the sequence number is stored below both fields
  obtain ⟨ecx, hlast⟩ : ∃ ecx, (serverAccept 0 receive predicted).2 = store32 after.2 56 ecx := by
    rw [← hafter, ← hcount]
    exact ⟨_, rfl⟩
  have hlast32 : load32 (serverAccept 0 receive predicted).2 60 = load32 after.2 60 := by
    rw [hlast]
    exact load32_of_same fun _ hi _ => store32_of_ne (.inr (by omega))
  have hlast16 : load16 (serverAccept 0 receive predicted).2 66 = load16 after.2 66 := by
    rw [hlast, load16, store32_of_ne (by omega), store32_of_ne (by omega), load16]
  have hnumber : ackNumber mid.2 60 = ackNumber predicted 60 := congrArg bswap hmid32
  show (NotBehind (ackNumber predicted 60) (ackNumber receive 60) → _) ∧
    (¬ NotBehind (ackNumber predicted 60) (ackNumber receive 60) → _)
  rw [← hnumber]
  constructor
  · intro hnot
    obtain ⟨h32, h16⟩ := hupdate.1 hnot
    exact ⟨hlast32.trans h32, hlast16.trans h16⟩
  · intro hbehind
    obtain ⟨h32, h16⟩ := hupdate.2 hbehind
    exact ⟨hlast32.trans (h32.trans hmid32), hlast16.trans (h16.trans hmid16)⟩

end Server

/-! ### Both sides -/

section BothSides
variable (receive predicted : Mem)

/-- The acknowledgement updates. The server routine follows the rule on every packet that
it accepts. A client routine follows it on a matching packet exactly when the difference of
the two acknowledgement numbers does not overflow. -/
theorem ack_update (dc1 dc2 : BitVec 32) :
    (ServerMatch dc1 dc2 receive predicted →
      FollowsRule avsmLayout receive 0 predicted 0
        (serverValidateAvsmHeader dc1 dc2 receive predicted).2) ∧
    (Match receive 32 predicted 32 →
      (FollowsRule avsmLayout receive 0 predicted 0
          (clientValidateAvsmHeader receive predicted).2 ↔
        ¬ Overflows avsmLayout receive 0 predicted 0)) ∧
    (Match receive (dynOffset receive) predicted (dynOffset predicted) →
      (FollowsRule dynLayout receive (dynOffset receive) predicted (dynOffset predicted)
          (clientValidateDynHeader receive predicted).2 ↔
        ¬ Overflows dynLayout receive (dynOffset receive) predicted (dynOffset predicted))) ∧
    (SameBytes 14 receive 0 predicted 0 → Match receive 14 predicted 14 →
      (FollowsRule clientLayout receive 0 predicted 0
          (clientValidateHeader receive predicted).2 ↔
        ¬ Overflows clientLayout receive 0 predicted 0)) := by
  -- the routines without a shift have no front bytes to compare
  have hnone : ∀ {P : Nat → Prop}, ∀ i < 0, P i := fun i hi => absurd hi (by omega)
  refine ⟨serverValidateAvsmHeader_followsRule, fun hmatch => ?_, fun hmatch => ?_,
    fun hfront hmatch => ?_⟩
  · have haccept : clientValidateAvsmHeader receive predicted =
        accept avsmLayout 0 receive 0 predicted 0 :=
      placed_avsmLayout.clientValidate_of_match hnone hmatch
    rw [haccept]
    exact placed_avsmLayout.followsRule_accept_iff _ _ _ _ 0
  · have haccept : clientValidateDynHeader receive predicted =
        accept dynLayout 0 receive (dynOffset receive) predicted (dynOffset predicted) :=
      placed_dynLayout.clientValidate_of_match hnone hmatch
    rw [haccept]
    exact placed_dynLayout.followsRule_accept_iff _ _ _ _ 0
  · -- the Ethernet header is the front of the third one
    have hfront' : ∀ i < 14, receive (0 + (clientLayout.lanes + i)) =
        predicted (0 + (clientLayout.lanes + i)) := by
      intro i hi
      simpa [clientLayout] using hfront i hi
    have haccept : clientValidateHeader receive predicted =
        accept clientLayout 0 receive 0 predicted 0 :=
      placed_clientLayout.clientValidate_of_match hfront' hmatch
    rw [haccept]
    exact placed_clientLayout.followsRule_accept_iff _ _ _ _ 0

end BothSides

/-- Two headers at byte 32 that differ in the acknowledgement number only: it is `2 ^ 31` in
the predicted header and 1 in the received one. -/
def predictedHalf : Mem := fun i => if i = 60 then 0x80 else 0
/-- The received header of the example. -/
def receivedOne : Mem := fun i => if i = 63 then 1 else 0

/-- The two headers match, the received number is behind, and the client routine takes it
over. -/
theorem ack_update_half :
    Match receivedOne 32 predictedHalf 32 ∧
    (ackNumber predictedHalf 60 - ackNumber receivedOne 60).toInt = 2147483647 ∧
    ackNumber (clientValidateAvsmHeader receivedOne predictedHalf).2 60 = 1 ∧
    ¬ FollowsRule avsmLayout receivedOne 0 predictedHalf 0
      (clientValidateAvsmHeader receivedOne predictedHalf).2 := by
  have hmatch : Match receivedOne 32 predictedHalf 32 := by
    intro i hi
    have hall : ∀ i < 48, compared i = true → receivedOne (32 + i) = predictedHalf (32 + i) := by
      decide
    exact hall i (lt_of_compared hi) hi
  have hdifference :
      (ackNumber predictedHalf 60 - ackNumber receivedOne 60).toInt = 2147483647 := by decide
  have hover : Overflows avsmLayout receivedOne 0 predictedHalf 0 := by decide
  have haccept : clientValidateAvsmHeader receivedOne predictedHalf =
      accept avsmLayout 0 receivedOne 0 predictedHalf 0 :=
    placed_avsmLayout.clientValidate_of_match (fun i hi => absurd hi (by omega)) hmatch
  have hone : ackNumber (accept avsmLayout 0 receivedOne 0 predictedHalf 0).2 60 = 1 := by
    decide
  rw [haccept]
  exact ⟨hmatch, hdifference, hone,
    fun hrule => (placed_avsmLayout.followsRule_accept_iff _ _ _ _ 0).mp hrule hover⟩

/-- Headers of zeros: both routines accept them and follow the rule. -/
theorem ack_update_zero :
    FollowsRule avsmLayout (fun _ => 0) 0 (fun _ => 0) 0
        (clientValidateAvsmHeader (fun _ => 0) (fun _ => 0)).2 ∧
      FollowsRule avsmLayout (fun _ => 0) 0 (fun _ => 0) 0
        (serverValidateAvsmHeader 0 0xFFFF0000 (fun _ => 0) (fun _ => 0)).2 := by
  obtain ⟨hserver, hclient, -⟩ := ack_update (fun _ => 0) (fun _ => 0) 0 0xFFFF0000
  exact ⟨(hclient fun _ _ => rfl).mpr (by decide), hserver (by decide)⟩

end MyTestFiles.Proofs.Headers
