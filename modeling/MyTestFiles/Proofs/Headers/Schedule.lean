import MyTestFiles.Lib.Run
import MyTestFiles.Proofs.Headers.Variants

/-!
# `MyTestFiles.Proofs.Headers.Schedule`: the delayed acknowledgements of the dynamic routine

The TOS byte of the predicted header counts down the packets with payload to the next
acknowledgement, and its TTL byte is what the countdown is reloaded with. `Outcome` is what
one call on a matching packet does to these two bytes, to the predicted sequence number and
to the returned flag. `ack_schedule` is the law for runs of any length on one header.

The header stays where it is as long as its dynamic headers include their own three length
bytes (`dynOffset_validate`).

* `DueIn c r n t` says that after `n` packets with payload the next acknowledgement is due in `t`
  of them, when the first was due at `c` and the others are due every `r`. One packet with payload
  is a step of it, and the packet at which `t` is 1 reloads the countdown.
* A packet without payload changes neither the countdown nor the sequence number, so the run lemma
  counts packets with payload and not calls.
* The sums are taken modulo the width of the fields, since the sequence number of a long run
  wraps.
-/

set_option autoImplicit false

namespace MyTestFiles.Proofs.Headers

open MyTestFiles.Lib
open MyTestFiles.Lib.X86
open MyTestFiles.Headers

/-! ### The fields of the predicted header -/

section Fields
variable (predicted : Mem) (rdi : Nat)

/-- The packets to the next acknowledgement, in the header at `rdi`. -/
def countdown : Nat := (predicted (rdi + 1)).toNat

/-- What the countdown starts from again. -/
def reload : Nat := (predicted (rdi + 8)).toNat

/-- The TCP sequence number. -/
def sequence : Nat := (bswap (load32 predicted (rdi + 24))).toNat

end Fields

/-- The acknowledgement flag of a returned word. -/
def ackNeeded (word : BitVec 32) : Bool := word &&& ackMask != 0

/-- The IP total length of a received packet. -/
def totalLength (receive : Mem) : Nat := ipTotalLength dynLayout receive (dynOffset receive)

/-- A call on the predicted header at `rdi`, with a packet that matches it on every compared
byte and has an IP total length of at least 40. -/
structure Expected (rdi : Nat) (predicted receive : Mem) : Prop where
  header : dynOffset predicted = rdi
  agree : Match receive (dynOffset receive) predicted rdi
  length : 40 ≤ totalLength receive

/-- What a call does on an expected packet with `payload` bytes: nothing to the schedule
without payload, and otherwise one step of the countdown. -/
structure Outcome (rdi : Nat) (predicted predicted' : Mem) (word : BitVec 32) (payload : Nat) :
    Prop where
  reload : reload predicted' rdi = reload predicted rdi
  sequence : sequence predicted' rdi = (sequence predicted rdi + payload) % 4294967296
  empty : payload = 0 → ackNeeded word = false ∧ countdown predicted' rdi = countdown predicted rdi
  last : payload ≠ 0 → countdown predicted rdi = 1 →
    ackNeeded word = true ∧ countdown predicted' rdi = Headers.reload predicted rdi
  more : payload ≠ 0 → 1 < countdown predicted rdi →
    ackNeeded word = false ∧ countdown predicted' rdi + 1 = countdown predicted rdi

/-! ### One call -/

section Call
variable {receive predicted : Mem} {rdi : Nat}

/-- A length has the flag bit clear. -/
theorem ackNeeded_of_small {word : BitVec 32} (h : word.toNat < 2147483648) :
    ackNeeded word = false := by
  have hand : word &&& ackMask = 0 := by
    apply BitVec.eq_of_getLsbD_eq
    intro i hi
    rw [BitVec.getLsbD_and]
    by_cases h31 : i = 31
    · have hbit : word.getLsbD 31 = false := by
        rw [BitVec.getLsbD, Nat.testBit_lt_two_pow]
        exact h
      rw [h31, hbit]
      rfl
    · have hmask : ackMask.getLsbD i = false := by
        have hall : ∀ j < 31, ackMask.getLsbD j = false := by decide
        exact hall i (by omega)
      rw [hmask, Bool.and_false]
      simp
  simp [ackNeeded, hand]

/-- The mask sets the flag bit. -/
theorem ackNeeded_or_ackMask (word : BitVec 32) : ackNeeded (word ||| ackMask) = true := by
  have hand : (word ||| ackMask) &&& ackMask = ackMask := by
    apply BitVec.eq_of_getLsbD_eq
    intro i hi
    rw [BitVec.getLsbD_and, BitVec.getLsbD_or]
    cases word.getLsbD i <;> cases ackMask.getLsbD i <;> rfl
  simp only [ackNeeded, hand]
  decide

/-- The acknowledgement update leaves every byte but the window and the acknowledgement. -/
theorem ackUpdate_of_ne {rsi i : Nat} (hack : i < rdi + 28 ∨ rdi + 32 ≤ i)
    (hwindow : i < rdi + 34 ∨ rdi + 36 ≤ i) :
    ackUpdate dynLayout receive rsi predicted rdi i = predicted i := by
  simp only [ackUpdate]
  split_ifs
  · rfl
  · exact (store32_of_ne hack).trans (store16_of_ne hwindow)

/-- A doubleword of four bytes that agree. -/
theorem load32_of_same {m m' : Mem} {a : Nat} (h : ∀ i, a ≤ i → i < a + 4 → m i = m' i) :
    load32 m a = load32 m' a := by
  have hsame : SameBytes 4 m a m' a := fun i hi => h (a + i) (by omega) (by omega)
  exact hsame.load32_eq (k := 0) (by omega)

section Getlength
variable (eax ecx : BitVec 32) (mid : Mem) (rdi : Nat)

/-- With payload the sequence number advances. -/
theorem load32_getlength (h : eax - BitVec.ofNat 32 ipOverhead ≠ 0) :
    load32 (getlength dynLayout eax ecx mid rdi).2 (rdi + 24) =
      bswap (ecx + (eax - BitVec.ofNat 32 ipOverhead)) := by
  simp only [getlength, if_neg h]
  by_cases hz : mid (rdi + dynLayout.ipTos) - 1 ≠ 0
  · rw [if_pos hz]
    exact load32_store32 _ _ _
  · rw [if_neg hz]
    refine Eq.trans ?_ (load32_store32
      (store8 mid (rdi + dynLayout.ipTos) (mid (rdi + dynLayout.ipTos) - 1)) (rdi + 24) _)
    exact load32_of_same fun i hi _ => store8_of_ne (show i ≠ rdi + 1 by omega)

/-- With payload the countdown goes down by one, and the last step reloads it. -/
theorem tos_getlength (h : eax - BitVec.ofNat 32 ipOverhead ≠ 0) :
    (getlength dynLayout eax ecx mid rdi).2 (rdi + 1) =
      if mid (rdi + 1) - 1 ≠ 0 then mid (rdi + 1) - 1 else mid (rdi + 8) := by
  show (getlength dynLayout eax ecx mid rdi).2 (rdi + dynLayout.ipTos) =
    if mid (rdi + dynLayout.ipTos) - 1 ≠ 0 then mid (rdi + dynLayout.ipTos) - 1
    else mid (rdi + dynLayout.ipTtl)
  simp only [getlength, if_neg h]
  by_cases hz : mid (rdi + dynLayout.ipTos) - 1 ≠ 0
  · rw [if_pos hz, if_pos hz]
    show store32 _ (rdi + 24) _ (rdi + 1) = _
    rw [store32_of_ne (by omega)]
    exact store8_self _ _ _
  · rw [if_neg hz, if_neg hz]
    exact store8_self _ _ _

/-- The reload value is never written. -/
theorem ttl_getlength :
    (getlength dynLayout eax ecx mid rdi).2 (rdi + 8) = mid (rdi + 8) := by
  have htos : ∀ (m : Mem) (b : Byte), store8 m (rdi + dynLayout.ipTos) b (rdi + 8) = m (rdi + 8) :=
    fun m b => store8_of_ne (show rdi + 8 ≠ rdi + 1 by omega)
  have hseq : ∀ (m : Mem) (w : BitVec 32),
      store32 m (rdi + dynLayout.tcpSequence) w (rdi + 8) = m (rdi + 8) :=
    fun m w => store32_of_ne (.inl (show rdi + 8 < rdi + 24 by omega))
  simp only [getlength]
  split_ifs
  · rfl
  · exact (hseq _ _).trans (htos _ _)
  · exact (htos _ _).trans ((hseq _ _).trans (htos _ _))

/-- The answer for a packet with payload is its length, with the flag where the countdown has run
out. -/
theorem word_getlength (h : eax - BitVec.ofNat 32 ipOverhead ≠ 0) :
    (getlength dynLayout eax ecx mid rdi).1 =
      if mid (rdi + 1) - 1 ≠ 0 then eax - BitVec.ofNat 32 ipOverhead
      else (eax - BitVec.ofNat 32 ipOverhead) ||| ackMask := by
  show _ = if mid (rdi + dynLayout.ipTos) - 1 ≠ 0 then _ else _
  simp only [getlength, if_neg h]
  split_ifs <;> rfl

end Getlength

/-- A call on an expected packet is the accept path. -/
theorem validate_of_expected (h : Expected rdi predicted receive) :
    clientValidateDynHeader receive predicted =
      accept dynLayout 0 receive (dynOffset receive) predicted rdi := by
  rw [clientValidateDynHeader, h.header]
  exact placed_dynLayout.clientValidate_of_match (fun i hi => absurd hi (by omega)) h.agree

/-- A dynamic header that includes its three length bytes is outside what a call writes. -/
theorem dynOffset_validate (receive : Mem) (ho : 3 ≤ dynOffset predicted) :
    dynOffset (clientValidateDynHeader receive predicted).2 = dynOffset predicted := by
  have hkeep : ∀ i < 3, (clientValidateDynHeader receive predicted).2 i = predicted i :=
    fun i hi => placed_dynLayout.clientValidate_snd_of_outside _ _ (.inl (by
      simp only [dynLayout]
      omega))
  rw [dynOffset, hkeep 0 (by omega), hkeep 1 (by omega), hkeep 2 (by omega), dynOffset]

/-- The sequence number that the packet carries is the predicted one. -/
theorem load32_sequence (h : Expected rdi predicted receive) :
    load32 receive (dynOffset receive + 24) = load32 predicted (rdi + 24) := by
  have hsame : ∀ i, 24 ≤ i → i < 28 → receive (dynOffset receive + i) = predicted (rdi + i) := by
    intro i hi hi'
    exact h.agree i (by simp only [compared, decide_eq_true_eq]; omega)
  simp only [load32, Nat.add_assoc]
  rw [hsame 24 (by omega) (by omega), hsame 25 (by omega) (by omega),
    hsame 26 (by omega) (by omega), hsame 27 (by omega) (by omega)]

/-- The header after the acknowledgement update. -/
def updated (rdi : Nat) (predicted receive : Mem) : Mem :=
  ackUpdate dynLayout receive (dynOffset receive) predicted rdi

/-- The update does not reach the bytes before the acknowledgement. -/
theorem updated_of_lt {i : Nat} (hi : i < 28) :
    updated rdi predicted receive (rdi + i) = predicted (rdi + i) :=
  ackUpdate_of_ne (by omega) (by omega)

/-- The prediction of the acknowledgement number stays. -/
theorem load32_updated :
    load32 (updated rdi predicted receive) (rdi + 24) = load32 predicted (rdi + 24) := by
  apply load32_of_same
  intro i hi hi'
  obtain ⟨j, rfl⟩ := Nat.exists_eq_add_of_le (show rdi ≤ i by omega)
  exact updated_of_lt (by omega)

/-- A packet that matches the prediction gets to the last part of the routine, with the sequence
number updated. -/
theorem validate_eq_getlength (h : Expected rdi predicted receive) :
    clientValidateDynHeader receive predicted =
      getlength dynLayout (setLow16 0 (rol8 (load16 receive (dynOffset receive + 2))))
        (bswap (load32 receive (dynOffset receive + 24))) (updated rdi predicted receive) rdi := by
  rw [validate_of_expected h]
  rfl

/-- The returned length is the payload. -/
theorem toNat_acceptedLength_of_expected (h : Expected rdi predicted receive) :
    (acceptedLength dynLayout receive (dynOffset receive)).toNat = totalLength receive - 40 := by
  have hlen := h.length
  have hlt := ipTotalLength_lt dynLayout receive (dynOffset receive)
  rw [toNat_acceptedLength]
  simp only [totalLength] at hlen ⊢
  omega

/-- One packet with payload takes one from the countdown. -/
theorem countdown_sub_one (hpos : 1 ≤ countdown predicted rdi) :
    (predicted (rdi + 1) - 1).toNat + 1 = countdown predicted rdi := by
  have hlt := (predicted (rdi + 1)).isLt
  simp only [countdown] at hpos ⊢
  rw [BitVec.toNat_sub]
  show (2 ^ 8 - 1 + (predicted (rdi + 1)).toNat) % 2 ^ 8 + 1 = _
  omega

/-- A pure acknowledgement: only the acknowledgement update. -/
theorem outcome_of_empty (h : Expected rdi predicted receive)
    (hzero : acceptedLength dynLayout receive (dynOffset receive) = 0) :
    Outcome rdi predicted (clientValidateDynHeader receive predicted).2
      (clientValidateDynHeader receive predicted).1 (totalLength receive - 40) := by
  have hnone : totalLength receive - 40 = 0 := by
    rw [← toNat_acceptedLength_of_expected h, hzero]
    rfl
  -- Nothing follows the headers, so the routine returns behind the acknowledgement update.
  have hresult : clientValidateDynHeader receive predicted
      = (0, updated rdi predicted receive) := by
    rw [validate_eq_getlength h, getlength]
    exact (if_pos hzero).trans (congrArg (·, updated rdi predicted receive) hzero)
  rw [hresult]
  show Outcome rdi predicted (updated rdi predicted receive) 0 _
  exact
    { reload := by rw [reload, updated_of_lt (by omega), reload]
      sequence := by
        have hseq := (bswap (load32 predicted (rdi + 24))).isLt
        rw [sequence, load32_updated, hnone, sequence]
        omega
      empty := fun _ => ⟨by decide, by rw [countdown, updated_of_lt (by omega), countdown]⟩
      last := fun hne => absurd hnone hne
      more := fun hne => absurd hnone hne }

/-- A packet with payload: one step of the countdown. -/
theorem outcome_of_payload (h : Expected rdi predicted receive)
    (hpos : 1 ≤ countdown predicted rdi)
    (hzero : acceptedLength dynLayout receive (dynOffset receive) ≠ 0) :
    Outcome rdi predicted (clientValidateDynHeader receive predicted).2
      (clientValidateDynHeader receive predicted).1 (totalLength receive - 40) := by
  have hne : setLow16 0 (rol8 (load16 receive (dynOffset receive + 2))) -
      BitVec.ofNat 32 ipOverhead ≠ 0 := hzero
  have hpayload := toNat_acceptedLength_of_expected h
  have hsome : totalLength receive - 40 ≠ 0 := by
    intro hnone
    rw [hnone] at hpayload
    exact hzero (BitVec.eq_of_toNat_eq hpayload)
  have hrun := validate_eq_getlength h
  have htos : (clientValidateDynHeader receive predicted).2 (rdi + 1) =
      if predicted (rdi + 1) - 1 ≠ 0 then predicted (rdi + 1) - 1 else predicted (rdi + 8) := by
    rw [hrun, tos_getlength _ _ _ _ hne, updated_of_lt (by omega), updated_of_lt (by omega)]
  -- the flag is set when the count of this packet runs out
  have hword : (clientValidateDynHeader receive predicted).1 =
      if predicted (rdi + 1) - 1 ≠ 0
      then acceptedLength dynLayout receive (dynOffset receive)
      else acceptedLength dynLayout receive (dynOffset receive) ||| ackMask := by
    rw [hrun, word_getlength _ _ _ _ hne, updated_of_lt (by omega)]
    rfl
  have hstep := countdown_sub_one hpos
  exact
    { reload := by rw [reload, hrun, ttl_getlength, updated_of_lt (by omega), reload]
      sequence := by
        rw [sequence, hrun, load32_getlength _ _ _ _ hne, bswap_bswap,
          BitVec.toNat_add, load32_sequence h, sequence, ← hpayload]
        rfl
      empty := fun hnone => absurd hnone hsome
      last := fun _ hone => by
        have hend : predicted (rdi + 1) - 1 = 0 := BitVec.eq_of_toNat_eq (show _ = 0 by omega)
        rw [hword, if_neg (not_not_intro hend), countdown, htos, if_neg (not_not_intro hend)]
        exact ⟨ackNeeded_or_ackMask _, rfl⟩
      more := fun _ hmore => by
        have hgo : predicted (rdi + 1) - 1 ≠ 0 := by
          intro hend
          rw [hend] at hstep
          simp at hstep
          omega
        rw [hword, if_pos hgo, countdown, htos, if_pos hgo]
        refine ⟨ackNeeded_of_small ?_, hstep⟩
        have hlt := ipTotalLength_lt dynLayout receive (dynOffset receive)
        simp only [totalLength] at hpayload
        omega }

/-- One call on an expected packet. -/
theorem outcome (h : Expected rdi predicted receive) (hpos : 1 ≤ countdown predicted rdi) :
    Outcome rdi predicted (clientValidateDynHeader receive predicted).2
      (clientValidateDynHeader receive predicted).1 (totalLength receive - 40) := by
  by_cases hzero : acceptedLength dynLayout receive (dynOffset receive) = 0
  · exact outcome_of_empty h hzero
  · exact outcome_of_payload h hpos hzero

end Call

/-! ### Runs of calls -/

/-- The packets with payload. -/
def dataCount (packets : List Mem) : Nat := packets.countP fun receive => 40 < totalLength receive

/-- The payload bytes. -/
def payloadSum (packets : List Mem) : Nat :=
  (packets.map fun receive => totalLength receive - 40).sum

/-- One more packet counts where it has payload. -/
theorem dataCount_snoc (past : List Mem) (receive : Mem) :
    dataCount (past ++ [receive]) = dataCount past + if 40 < totalLength receive then 1 else 0 := by
  by_cases h : 40 < totalLength receive <;> simp [dataCount, h]

/-- One more packet adds its payload. -/
theorem payloadSum_snoc (past : List Mem) (receive : Mem) :
    payloadSum (past ++ [receive]) = payloadSum past + (totalLength receive - 40) := by
  simp [payloadSum]

/-- After `n` packets with payload the next acknowledgement is due `t` packets later. -/
def DueIn (c r n t : Nat) : Prop := 1 ≤ t ∧ ∃ k, n + t = c + k * r ∧ (k = 0 ∨ t ≤ r)

section Due
variable {c r n t : Nat}

/-- The next packet is one at which an acknowledgement is due, just where it is due in one packet.
-/
theorem DueIn.next_iff (h : DueIn c r n t) : (∃ k, n + 1 = c + k * r) ↔ t = 1 := by
  obtain ⟨hpos, k, heq, hk⟩ := h
  constructor
  · rintro ⟨j, hj⟩
    rcases hk with rfl | hle
    · have := Nat.zero_le (j * r)
      omega
    · rcases Nat.lt_or_ge j k with hlt | hge
      · -- two flags are at least `r` apart
        have hmul : (j + 1) * r ≤ k * r := Nat.mul_le_mul_right r hlt
        rw [Nat.add_mul, Nat.one_mul] at hmul
        omega
      · have hmul : k * r ≤ j * r := Nat.mul_le_mul_right r hge
        omega
  · rintro rfl
    exact ⟨k, heq⟩

/-- A packet before the due one brings it closer. -/
theorem DueIn.step (h : DueIn c r n (t + 1)) (ht : 1 ≤ t) : DueIn c r (n + 1) t := by
  obtain ⟨-, k, heq, hk⟩ := h
  exact ⟨ht, k, by omega, hk.imp id fun hle => by omega⟩

/-- After the due packet the next is due a whole period later. -/
theorem DueIn.again (h : DueIn c r n 1) (hr : 1 ≤ r) : DueIn c r (n + 1) r := by
  obtain ⟨-, k, heq, -⟩ := h
  refine ⟨hr, k + 1, ?_, .inr (Nat.le_refl r)⟩
  rw [Nat.add_mul, Nat.one_mul]
  omega

end Due

/-- What the predicted header at `rdi` says after the packets of `past`, from a header with
the countdown `c`, the reload `r` and the sequence number `s`. -/
structure OnSchedule (rdi c r s : Nat) (past : List Mem) (predicted : Mem) : Prop where
  due : DueIn c r (dataCount past) (countdown predicted rdi)
  reload : reload predicted rdi = r
  sequence : sequence predicted rdi = (s + payloadSum past) % 4294967296

/-- A packet is flagged when it is the packet number `c`, `c + r`, `c + 2r`, .. with
payload. -/
def Flagged (c r : Nat) (past : List Mem) (receive : Mem) (word : BitVec 32) : Prop :=
  ackNeeded word = true ↔
    40 < totalLength receive ∧ ∃ k, dataCount (past ++ [receive]) = c + k * r

/-- One call keeps to the schedule. -/
theorem onSchedule_step {rdi c r s : Nat} {past : List Mem} {predicted receive : Mem}
    (hr : 1 ≤ r) (h : OnSchedule rdi c r s past predicted)
    (hexpected : Expected rdi predicted receive) :
    OnSchedule rdi c r s (past ++ [receive]) (clientValidateDynHeader receive predicted).2 ∧
      Flagged c r past receive (clientValidateDynHeader receive predicted).1 := by
  have hout := outcome hexpected h.due.1
  have hlen := hexpected.length
  have hreload := hout.reload.trans h.reload
  have hsequence : sequence (clientValidateDynHeader receive predicted).2 rdi =
      (s + payloadSum (past ++ [receive])) % 4294967296 := by
    rw [hout.sequence, h.sequence, payloadSum_snoc]
    omega
  have hcount := dataCount_snoc past receive
  -- a packet without payload leaves the count as it is
  by_cases hdata : 40 < totalLength receive
  · rw [if_pos hdata] at hcount
    have hpayload : totalLength receive - 40 ≠ 0 := by omega
    have hnext := h.due.next_iff
    rw [← hcount] at hnext
    -- the count runs out, and is reloaded
    by_cases hlast : countdown predicted rdi = 1
    · obtain ⟨hflag, hcountdown⟩ := hout.last hpayload hlast
      have hdue : DueIn c r (dataCount (past ++ [receive]))
          (countdown (clientValidateDynHeader receive predicted).2 rdi) := by
        rw [hcount, hcountdown, h.reload]
        exact (hlast ▸ h.due).again hr
      exact ⟨⟨hdue, hreload, hsequence⟩, fun _ => ⟨hdata, hnext.mpr hlast⟩, fun _ => hflag⟩
    · have hpos := h.due.1
      obtain ⟨hflag, hcountdown⟩ := hout.more hpayload (by omega)
      have hdue : DueIn c r (dataCount (past ++ [receive]))
          (countdown (clientValidateDynHeader receive predicted).2 rdi) := by
        rw [hcount]
        exact (hcountdown ▸ h.due).step (by omega)
      refine ⟨⟨hdue, hreload, hsequence⟩, fun hack => ?_, fun hk => absurd (hnext.mp hk.2) hlast⟩
      rw [hflag] at hack
      cases hack
  · rw [if_neg hdata] at hcount
    obtain ⟨hflag, hcountdown⟩ := hout.empty (by omega)
    have hdue : DueIn c r (dataCount (past ++ [receive]))
        (countdown (clientValidateDynHeader receive predicted).2 rdi) := by
      rw [hcount, hcountdown]
      exact h.due
    refine ⟨⟨hdue, hreload, hsequence⟩, fun hack => ?_, fun hk => absurd hk.1 hdata⟩
    rw [hflag] at hack
    cases hack

/-- The delayed acknowledgements. In every run of calls on one predicted header with the
packets that it expects, the flag is returned exactly for the packets number `c`, `c + r`,
`c + 2r`, .. with payload, and the sequence number advances by the payload bytes. Pure
acknowledgements in between count for neither. -/
theorem ack_schedule {rdi : Nat} {predicted : Mem} {packets : List Mem}
    (hc : 1 ≤ countdown predicted rdi) (hr : 1 ≤ reload predicted rdi)
    (hmeets : RunMeets dynHeaderStep (Expected rdi) predicted packets) :
    ∃ predicted' words, run dynHeaderStep predicted packets = some (predicted', words) ∧
      sequence predicted' rdi = (sequence predicted rdi + payloadSum packets) % 4294967296 ∧
      ∀ past receive future, packets = past ++ receive :: future →
        ∀ word, words[past.length]? = some word →
          (ackNeeded word = true ↔ 40 < totalLength receive ∧
            ∃ k, dataCount (past ++ [receive]) =
              countdown predicted rdi + k * reload predicted rdi) := by
  have htotal : ∀ t i, ∃ t' o, dynHeaderStep t i = some (t', o) := fun t i => ⟨_, _, rfl⟩
  obtain ⟨predicted', words, hrun⟩ := exists_run_of_total htotal predicted packets
  -- before the first packet the count is what the header holds
  have hstart : OnSchedule rdi (countdown predicted rdi) (reload predicted rdi)
      (sequence predicted rdi) [] predicted := by
    refine ⟨⟨hc, 0, by simp [dataCount], .inl rfl⟩, rfl, ?_⟩
    have hlt := (bswap (load32 predicted (rdi + 24))).isLt
    simp only [sequence, payloadSum, List.map_nil, List.sum_nil]
    omega
  have hstep : ∀ past s i s' o,
      OnSchedule rdi (countdown predicted rdi) (reload predicted rdi) (sequence predicted rdi)
        past s → Expected rdi s i → dynHeaderStep s i = some (s', o) →
      OnSchedule rdi (countdown predicted rdi) (reload predicted rdi) (sequence predicted rdi)
        (past ++ [i]) s' ∧ Flagged (countdown predicted rdi) (reload predicted rdi) past i o := by
    intro past s i s' o hs hexpected hstep
    cases hstep
    exact onSchedule_step hr hs hexpected
  obtain ⟨hend, hflags⟩ := run_history _ _ hstep hstart hmeets hrun
  exact ⟨predicted', words, hrun, hend.sequence,
    fun past receive future hpackets word hword => hflags past receive future hpackets word hword⟩

/-- A predicted header at byte 16, where the loads of whole lanes are aligned: the countdown is 1
and the reload 2. -/
def predictedOne : Mem := fun i =>
  if i = 0 then 16 else if i = 17 then 1 else if i = 24 then 2 else 0

/-- A packet with one byte of payload. -/
def oneByte : Mem := fun i => if i = 0 then 16 else if i = 19 then 41 else 0

/-- The pure acknowledgement after it. -/
def pureAck : Mem := fun i =>
  if i = 0 then 16 else if i = 19 then 40 else if i = 43 then 1 else 0

/-- The first packet counts down, and the acknowledgement moves the expected sequence number. -/
theorem ack_schedule_oneByte_pureAck :
    1 ≤ countdown predictedOne 16 ∧ 1 ≤ reload predictedOne 16 ∧
    RunMeets dynHeaderStep (Expected 16) predictedOne [oneByte, pureAck] ∧
    ∃ predicted' words,
      run dynHeaderStep predictedOne [oneByte, pureAck] = some (predicted', words) ∧
      sequence predicted' 16 = 1 := by
  have hc : 1 ≤ countdown predictedOne 16 := by decide
  have hr : 1 ≤ reload predictedOne 16 := by decide
  have hmatch : ∀ receive predicted : Mem,
      (∀ i < 48, compared i = true → receive (16 + i) = predicted (16 + i)) →
        Match receive 16 predicted 16 :=
    fun receive predicted h i hi => h i (lt_of_compared hi) hi
  have hmeets : RunMeets dynHeaderStep (Expected 16) predictedOne [oneByte, pureAck] := by
    refine runMeets_cons ⟨by decide, hmatch _ _ (by decide), by decide⟩ rfl ?_
    exact runMeets_cons ⟨by decide, hmatch _ _ (by decide), by decide⟩ rfl trivial
  obtain ⟨predicted', words, hrun, hsequence, -⟩ := ack_schedule hc hr hmeets
  refine ⟨hc, hr, hmeets, predicted', words, hrun, hsequence.trans ?_⟩
  decide

end MyTestFiles.Proofs.Headers
