import MyTestFiles.Proofs.Netlink.Receive

/-!
# `MyTestFiles.Proofs.Netlink.Talk`: the answer to a request

`rtnl_talk` numbers a request, sends it and waits for the message that answers it.

* `talkRequest_spec` is the request as it is sent. The number that is written into its header is
  the one that the handle goes on from, and the one that `rtnl_talk` waits for.
* `IsTalkAnswer` is a message from the peer to this process with the number of the request.
* `talkReceiver` is `rtnl_talk` as a receiver. An error ends the call, and so does any answer
  where one is wanted. An answer that nobody wants is reported and passed over, and a message
  that does not answer the request goes to `junk`.
* `rtnlTalk_eq`: where the request is sent, the messages are delivered to that receiver, however
  they are split into datagrams. Where it is not, the call fails at once.

The request is sent once. Neither a message to someone else nor an interrupted call makes the loop
send it again, and the loop reads until the receiver ends the call or the socket does.

An error that carries the number 0 is an acknowledgement. It ends the call with success, and the
message is the answer then.
-/

set_option autoImplicit false

namespace MyTestFiles.Proofs.Netlink

open MyTestFiles.Lib MyTestFiles.Netlink

variable {σ : Type} (rtnl : RtnlHandle) (peer seq : Nat) (answer : Bool)
  (junk : Option (RtnlFilter σ))

/-- Apart from what has been printed. -/
def unprinted (s : Talk σ) : Talk σ := { s with printed := [] }

/-- What has been printed makes no difference to what is done with a message. -/
theorem ignoresPrinted_talkMessage :
    IgnoresPrinted (talkMessage rtnl peer seq answer junk) unprinted := by
  intro who msg s
  unfold handleQuietly talkMessage
  -- The cases are the reads and decisions of `rtnl_talk`, none of which looks at the texts.
  cases nlmsgPid msg 0 with
  | none => rfl
  | some pid =>
      cases nlmsgSeq msg 0 with
      | none => rfl
      | some msgSeq =>
          simp only [Option.bind_eq_bind, Option.bind_some]
          split
          · have hjunk : (unprinted s).junk = s.junk := rfl
            rw [hjunk]
            cases callJunk junk who msg s.junk <;> rfl
          · cases nlmsgType msg 0 with
            | none => rfl
            | some type =>
                simp only [Option.bind_some]
                split
                · cases nlmsgLen msg 0 with
                  | none => rfl
                  | some len =>
                      simp only [Option.bind_some]
                      split
                      · rfl
                      · cases nlmsgErrno msg 0 with
                        | none => rfl
                        | some errno =>
                            simp only [Option.bind_some]
                            split
                            · cases answer <;> rfl
                            · rfl
                · split <;> rfl

/-- The message answers the request. -/
def IsTalkAnswer (x : SockaddrNl × Bytes) : Prop :=
  x.1.nlPid = peer ∧ nlmsgPid x.2 0 = some rtnl.localPid ∧ nlmsgSeq x.2 0 = some seq

instance (x : SockaddrNl × Bytes) : Decidable (IsTalkAnswer rtnl peer seq x) :=
  inferInstanceAs (Decidable (_ ∧ _ ∧ _))

/-! ### The request -/

/-- The request has the number that the handle goes on from. -/
theorem nlmsgSeq_talkRequest {rtnl' : RtnlHandle} {buf buf' : Bytes} {n : Nat}
    (h : talkRequest rtnl buf n answer = some (rtnl', buf')) :
    nlmsgSeq buf' n = some rtnl'.seq := by
  obtain ⟨buf₁, hstore, hflags⟩ := Option.bind_eq_some_iff.mp h
  have hheld : Holds buf₁ (n + 8) (toLE 4 (uint32 (rtnl.seq + 1))) := Holds.of_store hstore
  have hsent : Holds buf' (n + 8) (toLE 4 (uint32 (rtnl.seq + 1))) ∧
      rtnl'.seq = uint32 (rtnl.seq + 1) := by
    cases answer with
    | true =>
        simp only [if_true, Option.bind_eq_bind, Option.bind_some] at hflags
        cases hflags
        exact ⟨hheld, rfl⟩
    | false =>
        -- the flags stand in front of the number
        simp only [Bool.false_eq_true, if_false] at hflags
        obtain ⟨flags, -, hrest⟩ := Option.bind_eq_some_iff.mp hflags
        obtain ⟨buf₂, hack, hreturn⟩ := Option.bind_eq_some_iff.mp hrest
        cases hreturn
        exact ⟨hheld.store hack (Or.inr (by rw [length_toLE])), rfl⟩
  rw [nlmsgSeq_of_holds hsent.1, hsent.2]

/-- A header that lies in the buffer is numbered and, where no answer is wanted, marked. The
handle keeps everything but its number. -/
theorem talkRequest_spec {buf : Bytes} {n : Nat} (hroom : n + nlmsgHdrlen ≤ buf.length) :
    ∃ request, talkRequest rtnl buf n answer =
        some ({ rtnl with seq := uint32 (rtnl.seq + 1) }, request) ∧
      nlmsgSeq request n = some (uint32 (rtnl.seq + 1)) := by
  simp only [nlmsgHdrlen] at hroom
  obtain ⟨buf₁, h₁⟩ : ∃ buf₁,
      storeBytes buf (n + 8) (toLE 4 (uint32 (rtnl.seq + 1))) = some buf₁ :=
    ⟨_, storeBytes_of_le (by rw [length_toLE]; omega)⟩
  have hlen := length_of_storeBytes h₁
  obtain ⟨request, hrequest⟩ : ∃ request, talkRequest rtnl buf n answer =
      some ({ rtnl with seq := uint32 (rtnl.seq + 1) }, request) := by
    cases answer with
    | true => exact ⟨buf₁, by simp [talkRequest, h₁]⟩
    | false =>
        obtain ⟨flags, hflags⟩ : ∃ flags, nlmsgFlags buf₁ n = some flags :=
          Option.isSome_iff_exists.mp ((isSome_loadLE_iff (by decide)).mpr (by omega))
        obtain ⟨buf₂, h₂⟩ : ∃ buf₂,
            storeBytes buf₁ (n + 6) (toLE 2 (flags ||| NLM_F_ACK)) = some buf₂ :=
          ⟨_, storeBytes_of_le (by rw [length_toLE]; omega)⟩
        exact ⟨buf₂, by simp [talkRequest, h₁, hflags, h₂]⟩
  exact ⟨request, hrequest, nlmsgSeq_talkRequest rtnl answer hrequest⟩

/-- How an answer ends the call, if it does. -/
def talkEnding (msg : Bytes) : Option Outcome :=
  if nlmsgType msg 0 = some NLMSG_ERROR then
    if msg.length - nlmsgHdrlen < sizeofNlmsgerr then some (.error "ERROR truncated\n")
    else (nlmsgErrno msg 0).map fun errno => if errno = 0 then .returned 0 else .answers errno
  else if answer then some (.returned 0)
  else none

/-- `rtnl_talk` as a receiver. The answer that is wanted is stored where the outcome is good. -/
def talkReceiver : Receiver (Talk σ) where
  ending x s :=
    if IsTalkAnswer rtnl peer seq x then
      (talkEnding answer x.2).map fun outcome =>
        ({ s with
          answer := if answer = true ∧ outcome = .returned 0 then some x.2 else s.answer }, outcome)
    else none
  callback x s :=
    if IsTalkAnswer rtnl peer seq x then (s, 0)
    else
      let (j, err) := junkCallback junk x s.junk
      ({ s with junk := j }, err)

variable {rtnl peer seq answer junk} {m : Bytes} {who : SockaddrNl}

/-- A message that does not answer the request goes to `junk`. -/
theorem talkMessage_foreign (hm : IsFrame 16 4 m)
    (hforeign : ¬IsTalkAnswer rtnl peer seq (who, m)) (s : Talk σ) :
    talkMessage rtnl peer seq answer junk who m s =
      some ((talkReceiver rtnl peer seq answer junk).serve s (who, m)) := by
  obtain ⟨type, msgSeq, pid, -, -, hseq, hpid⟩ := exists_fields hm
  have hskip : who.nlPid ≠ peer ∨ pid ≠ rtnl.localPid ∨ msgSeq ≠ seq := by
    simp only [IsTalkAnswer, hpid, hseq, Option.some.injEq] at hforeign
    tauto
  simp only [talkMessage, hpid, hseq, Option.bind_eq_bind, Option.bind_some, if_pos hskip,
    callJunk_eq, Receiver.serve, talkReceiver, if_neg hforeign]
  by_cases herr : (junkCallback junk (who, m) s.junk).2 < 0
  · simp only [if_pos herr]
  · simp only [if_neg herr]

/-- A message that answers the request gets through to the branches on its type. -/
theorem not_skipped {pid msgSeq : Nat} (hpid : nlmsgPid m 0 = some pid)
    (hseq : nlmsgSeq m 0 = some msgSeq) (hanswer : IsTalkAnswer rtnl peer seq (who, m)) :
    ¬(who.nlPid ≠ peer ∨ pid ≠ rtnl.localPid ∨ msgSeq ≠ seq) := by
  simp only [IsTalkAnswer, hpid, hseq, Option.some.injEq] at hanswer
  tauto

/-- A message that answers the request, apart from what is printed about an answer that nobody
wants. -/
theorem talkMessage_answer (hm : IsFrame 16 4 m) (hanswer : IsTalkAnswer rtnl peer seq (who, m))
    {s : Talk σ} (hs : s.printed = []) :
    handleQuietly (talkMessage rtnl peer seq answer junk) unprinted who m s =
      some ((talkReceiver rtnl peer seq answer junk).serve s (who, m)) := by
  obtain ⟨type, msgSeq, pid, hlen, htype, hseq, hpid⟩ := exists_fields hm
  have hquiet : unprinted s = s := by rw [unprinted, ← hs]
  simp only [handleQuietly, talkMessage, hpid, hseq, hlen, htype, Option.bind_eq_bind,
    Option.bind_some, if_neg (not_skipped hpid hseq hanswer), Receiver.serve, talkReceiver,
    if_pos hanswer, talkEnding, Option.some.injEq]
  -- An error has a code, unless it is too short for one, and 0 is an acknowledgement.
  by_cases herror : type = NLMSG_ERROR
  · by_cases hshort : m.length - nlmsgHdrlen < sizeofNlmsgerr
    · simp only [if_pos herror, if_pos hshort, Option.map_some, quietly, hquiet, reduceCtorEq,
        and_false, if_false]
    · obtain ⟨errno, herrno⟩ := exists_errno (m := m) (by
        simp only [nlmsgLength, sizeofNlmsgerr, nlmsgHdrlen] at hshort ⊢
        omega)
      simp only [if_pos herror, if_neg hshort, herrno, Option.bind_some, Option.map_some]
      by_cases hzero : errno = 0
      · cases answer <;> simp [hzero, quietly, unprinted, hs]
      · simp only [if_neg hzero, quietly, hquiet, Option.map_some, reduceCtorEq, and_false,
          if_false]
  · simp only [if_neg herror]
    cases answer with
    | true => simp [quietly, unprinted, hs]
    | false => simpa [quietly, unprinted, hs] using hquiet

/-- The receiver prints nothing. -/
theorem quietly_serve {s : Talk σ} (hs : s.printed = []) (x : SockaddrNl × Bytes) :
    quietly unprinted ((talkReceiver rtnl peer seq answer junk).serve s x) =
      (talkReceiver rtnl peer seq answer junk).serve s x := by
  have hquiet : unprinted s = s := by rw [unprinted, ← hs]
  unfold Receiver.serve talkReceiver
  by_cases hanswer : IsTalkAnswer rtnl peer seq x
  · cases hend : talkEnding answer x.2 with
    | some outcome => simp [hanswer, hend, quietly, unprinted, hs]
    | none => simp [hanswer, hend, quietly, hquiet]
  · by_cases herr : (junkCallback junk x s.junk).2 < 0
    · simp [hanswer, herr, quietly, unprinted, hs]
    · simp [hanswer, herr, quietly, unprinted, hs]

/-- The loop of `rtnl_talk` is the receiver, apart from what is printed. -/
theorem talkLoop_eq (s : Talk σ) (buf : Bytes) (arrivals : List (Arrival 16384)) :
    (talkLoop rtnl peer seq answer junk s buf (arrivals.map Arrival.received)).map
        (fun r => (unprinted r.1, r.2)) =
      some ((talkReceiver rtnl peer seq answer junk).deliver (unprinted s)
        (messages arrivals)) := by
  have heq : (talkLoop rtnl peer seq answer junk s buf (arrivals.map Arrival.received)).map
      (fun r => (unprinted r.1, r.2)) = _ :=
    receiveLoop_eq_demux le_rfl (ignoresPrinted_talkMessage rtnl peer seq answer junk)
      (fun text s => { s with printed := s.printed ++ [text] }) (fun _ _ => rfl) _ s buf arrivals
  rw [heq]
  refine demux_eq_deliver (fun s => s.printed = []) (fun s x t hs hserve => ?_)
    (fun x hx s hs => ?_) rfl
  · have hquiet : quietly unprinted ((talkReceiver rtnl peer seq answer junk).serve s x) = _ :=
      quietly_serve hs x
    rw [hserve] at hquiet
    exact congrArg Talk.printed (Except.ok.inj hquiet).symm
  · have hframe := isFrame_of_mem_messages hx
    by_cases hanswer : IsTalkAnswer rtnl peer seq x
    · exact talkMessage_answer hframe hanswer hs
    · rw [handleQuietly, talkMessage_foreign hframe hanswer, Option.map_some, quietly_serve hs]

end MyTestFiles.Proofs.Netlink
