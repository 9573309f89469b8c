import MyTestFiles.Netlink.Messages

/-!
# `MyTestFiles.Proofs.Netlink.Demux`: messages in any datagrams

The kernel puts messages one behind the other into datagrams. How it splits them, and what
interrupts the calls in between, makes no difference to `rtnl_dump_filter`: it is a receiver that
gets the messages one by one.

* `Packet size` is a datagram of whole messages that fits a buffer of `size` bytes. `Arrival` is
  what a call of `recvmsg` comes to, and `messages` what arrives in the end.
* `Receiver` says what becomes of one message. It ends the call, or it goes to a callback, which
  ends the call as well where it fails. `Receiver.deliver` is a list of messages.
* `rtnlDumpFilter_eq_demux` takes the datagrams away, and `rtnlDumpFilter_eq` puts
  `dumpReceiver` in the place of the code. The answers go to the filter and the others to `junk`,
  one by one and in order, until an answer ends the dump or a callback fails.

A receiver is the common form of the three functions that read from a socket. What they share, the
way from datagrams to messages, is proved once for any handler (`demux_append`,
`demux_eq_deliver`), and each function only has to show what it does with one message.
-/

set_option autoImplicit false

namespace MyTestFiles.Proofs.Netlink

open MyTestFiles.Lib MyTestFiles.Netlink

/-! ### Requests -/

/-- The number that a request got is read from its header. -/
theorem nlmsgSeq_of_holds {buf : Bytes} {h : Nat} {n : Int}
    (hheld : Holds buf (h + 8) (toLE 4 (uint32 n))) : nlmsgSeq buf h = some (uint32 n) := by
  have hseq : uint32 n < 256 ^ 4 := by
    simp only [uint32]
    omega
  rw [nlmsgSeq, loadLE_of_holds_toLE hheld, Nat.mod_eq_of_lt hseq]

/-! ### Datagrams -/

/-- A datagram that holds whole messages, each padded to a multiple of four bytes, and that
fits a buffer of `size` bytes. A datagram without bytes would be the end of the socket. -/
structure Packet (size : Nat) where
  who : SockaddrNl
  bytes : Bytes
  truncated : Bool
  msgs : List Bytes
  size_le : bytes.length ≤ size
  ne_nil : bytes ≠ []
  layout : Layout 4 bytes 0 msgs bytes.length
  frames : ∀ m ∈ msgs, IsFrame 16 4 m

/-- A datagram of one message from the kernel. -/
def Packet.single {size : Nat} (m : Bytes) (hm : IsFrame 16 4 m) (hpadded : 4 ∣ m.length)
    (hsize : m.length ≤ size) : Packet size where
  who := ⟨0⟩
  bytes := m
  truncated := false
  msgs := [m]
  size_le := hsize
  ne_nil := hm.ne_nil (by decide)
  layout := .cons List.prefix_rfl (by
    rw [alignUp_of_dvd (by decide) hpadded, Nat.zero_add]
    exact .nil _)
  frames := by simpa using hm

/-- What a call of `recvmsg` comes to, but for the end of the socket. -/
inductive Arrival (size : Nat) where
  | interrupted
  | failed
  | packet (p : Packet size)

variable {size : Nat}

/-- The arrival as the receive loops see it, with a sender's address of the right length. -/
def Arrival.received : Arrival size → Received
  | .interrupted => .interrupted
  | .failed => .failed
  | .packet p => .datagram p.who 12 p.bytes p.truncated

/-- The messages that arrive, each with its sender. -/
def messages : List (Arrival size) → List (SockaddrNl × Bytes)
  | [] => []
  | .packet p :: rest => p.msgs.map (fun m => (p.who, m)) ++ messages rest
  | _ :: rest => messages rest

/-! ### Receivers -/

section Receiver
variable {τ : Type}

/-- How a message ends a call, if it does, and the callback that it goes to otherwise. -/
structure Receiver (τ : Type) where
  ending : SockaddrNl × Bytes → τ → Option (τ × Outcome)
  callback : SockaddrNl × Bytes → τ → τ × Int

namespace Receiver
variable (r : Receiver τ)

/-- What becomes of one message. A callback that returns a negative number ends the call with
this number. -/
def serve (s : τ) (x : SockaddrNl × Bytes) : Except (τ × Outcome) τ :=
  match r.ending x s with
  | some out => .error out
  | none =>
      let (t, err) := r.callback x s
      if err < 0 then .error (t, .returned err) else .ok t

/-- What becomes of the messages, one after the other. -/
def deliver : τ → List (SockaddrNl × Bytes) → τ × Outcome
  | s, [] => (s, .waiting)
  | s, x :: rest =>
      match r.serve s x with
      | .error out => out
      | .ok t => deliver t rest

end Receiver
end Receiver

section Demux
variable {τ : Type} (handle : SockaddrNl → Bytes → τ → Option (Except (τ × Outcome) τ))

/-- A receiver that gets the messages one by one. -/
def demux : τ → List (SockaddrNl × Bytes) → Option (τ × Outcome)
  | s, [] => some (s, .waiting)
  | s, (who, msg) :: rest => do
      match ← handle who msg s with
      | .error r => some r
      | .ok s => demux s rest

/-- The messages of one datagram. -/
def handleAll (who : SockaddrNl) : τ → List Bytes → Option (Except (τ × Outcome) τ)
  | s, [] => some (.ok s)
  | s, msg :: msgs => do
      match ← handle who msg s with
      | .error r => some (.error r)
      | .ok s => handleAll who s msgs

/-- The messages of one datagram come before those of the next ones. -/
theorem demux_append (who : SockaddrNl) (s : τ) (msgs : List Bytes)
    (rest : List (SockaddrNl × Bytes)) :
    demux handle s (msgs.map (fun m => (who, m)) ++ rest) = (handleAll handle who s msgs).bind
      fun r => match r with
        | .error r => some r
        | .ok s => demux handle s rest := by
  induction msgs generalizing s with
  | nil => rfl
  | cons msg msgs ih =>
      rw [List.map_cons, List.cons_append, demux, handleAll]
      cases handle who msg s with
      | none => rfl
      | some r =>
          cases r with
          | error r => rfl
          | ok s => exact ih s

variable {handle}

/-- Where the handler treats each message as the receiver does, it treats all of them so. The
states that occur meanwhile satisfy `inv`. -/
theorem demux_eq_deliver {r : Receiver τ} (inv : τ → Prop)
    (hinv : ∀ s x t, inv s → r.serve s x = .ok t → inv t) {msgs : List (SockaddrNl × Bytes)}
    (hserve : ∀ x ∈ msgs, ∀ s, inv s → handle x.1 x.2 s = some (r.serve s x)) {s : τ}
    (hs : inv s) : demux handle s msgs = some (r.deliver s msgs) := by
  induction msgs generalizing s with
  | nil => rfl
  | cons x msgs ih =>
      rw [demux, hserve x (by simp) s hs, Receiver.deliver]
      cases hx : r.serve s x with
      | error out => rfl
      | ok t => exact ih (fun y hy => hserve y (by simp [hy])) (hinv s x t hs hx)

end Demux

variable {σ : Type} {rth : RtnlHandle} {filter : RtnlFilter σ} {junk : Option (RtnlFilter σ)}
  {buf bytes m : Bytes} {h : Nat} {who : SockaddrNl}

/-- Where a message stands its length is read. -/
theorem nlmsgLen_of_holds (hm : Holds buf h m) (hframe : IsFrame 16 4 m) :
    nlmsgLen buf h = some m.length := hm.loadLE hframe.length

/-- Where a message stands its bytes are read. -/
theorem messageAt_of_holds (hm : Holds buf h m) (hframe : IsFrame 16 4 m) :
    messageAt buf h = some m := by
  rw [messageAt, nlmsgLen_of_holds hm hframe, Option.map_some, hm.eq_take_drop]

/-! ### `rtnl_dump_filter` -/

/-- Visits of the messages at their places. -/
theorem visits_eq (handle : SockaddrNl → Bytes → σ → Option (Except (σ × Outcome) σ))
    (who : SockaddrNl) {fs : List (Nat × Bytes)}
    (hheld : ∀ f ∈ fs, messageAt buf f.1 = some f.2) (s : σ) :
    visits (fun s h => (messageAt buf h).bind fun msg => handle who msg s) s
        (fs.map fun f => (f.1, f.2.length)) = handleAll handle who s (fs.map Prod.snd) := by
  induction fs generalizing s with
  | nil => rfl
  | cons f fs ih =>
      rw [List.map_cons, List.map_cons, visits, handleAll, hheld f (by simp), Option.bind_some]
      cases handle who f.2 s with
      | none => rfl
      | some r =>
          cases r with
          | error r => rfl
          | ok s => exact ih (fun g hg => hheld g (by simp [hg])) s

/-- The messages of a datagram lie at their places. -/
theorem messageAt_placed (p : Packet size) :
    ∀ f ∈ placed 4 0 p.msgs, messageAt p.bytes f.1 = some f.2 := fun f hf =>
  messageAt_of_holds (p.layout.holds_of_mem hf) (p.frames f.2 (by
    rw [← map_snd_placed 4 0 p.msgs]
    exact List.mem_map_of_mem hf))

/-- A walk over a datagram meets its messages. -/
theorem Packet.walk (p : Packet size) :
    Walk nlmsgHdrlen (nlmsgLen p.bytes) nlmsgAlign 0 p.bytes.length
    ((placed 4 0 p.msgs).map fun f => (f.1, f.2.length)) p.bytes.length 0 := by
  have hzero : ((p.bytes.length : Int) - (0 : Nat)) = p.bytes.length := by omega
  exact hzero ▸ p.layout.walk (by decide) (by decide) p.frames

/-- A message has at least one byte, so there are no more messages than bytes. -/
theorem Packet.length_placed_le (p : Packet size) :
    ((placed 4 0 p.msgs).map fun f => (f.1, f.2.length)).length ≤ p.bytes.length :=
  p.walk.length_le (by decide) (le_alignUp (by decide))

/-- Every message of a datagram is handled, and nothing is left over. -/
theorem dumpDatagram_eq (p : Packet size) (s : σ) :
    dumpDatagram rth filter junk p.who p.bytes s =
      (handleAll (dumpMessage rth filter junk) p.who s p.msgs).map fun r =>
        r.map fun s => (s, p.bytes.length, 0) := by
  have hvisits := visits_eq (dumpMessage rth filter junk) p.who (messageAt_placed p) s
  rw [map_snd_placed] at hvisits
  rw [dumpDatagram, walk_eq _ p.walk s (Nat.lt_succ_of_le p.length_placed_le), ← hvisits]
  rfl

/-- How the messages are split into datagrams, and what interrupts the calls in between, makes
no difference. -/
theorem rtnlDumpFilter_eq_demux (rth : RtnlHandle) (filter : RtnlFilter σ)
    (junk : Option (RtnlFilter σ)) (s : σ) (arrivals : List (Arrival size)) :
    (rtnlDumpFilter rth filter junk s (arrivals.map Arrival.received)).map (fun r => (r.1, r.2.1)) =
      demux (dumpMessage rth filter junk) s (messages arrivals) := by
  induction arrivals generalizing s with
  | nil => rfl
  | cons a arrivals ih =>
      cases a with
      | interrupted => exact ih s
      | failed =>
          rw [List.map_cons, Arrival.received, rtnlDumpFilter, Option.map_map]
          exact ih s
      | packet p =>
          rw [List.map_cons, Arrival.received, rtnlDumpFilter, if_neg p.ne_nil, dumpDatagram_eq,
            messages, demux_append]
          cases hall : handleAll (dumpMessage rth filter junk) p.who s p.msgs with
          | none => rfl
          | some r =>
              cases r with
              | error r => rfl
              | ok s' =>
                  -- the text about a truncated datagram is printed and forgotten
                  cases htrunc : p.truncated with
                  | true =>
                      simp only [Option.map_some, Except.map, Option.bind_eq_bind, Option.bind_some,
                        if_true, Option.map_map]
                      exact ih s'
                  | false =>
                      simp only [Option.map_some, Except.map, Option.bind_eq_bind, Option.bind_some,
                        Bool.false_eq_true, if_false, ne_eq, not_true_eq_false]
                      exact ih s'

/-! ### The end of a dump -/

/-- What arrives are whole messages. -/
theorem isFrame_of_mem_messages {arrivals : List (Arrival size)} {x : SockaddrNl × Bytes}
    (hx : x ∈ messages arrivals) : IsFrame 16 4 x.2 := by
  induction arrivals with
  | nil => simp [messages] at hx
  | cons a arrivals ih =>
      cases a with
      | interrupted => exact ih hx
      | failed => exact ih hx
      | packet p =>
          rcases List.mem_append.mp hx with hx | hx
          · obtain ⟨m, hm, rfl⟩ := List.mem_map.mp hx
            exact p.frames m hm
          · exact ih hx

/-- The fields of the header of a message can be read. -/
theorem exists_fields (hm : IsFrame 16 4 m) :
    ∃ type seq pid, nlmsgLen m 0 = some m.length ∧ nlmsgType m 0 = some type ∧
      nlmsgSeq m 0 = some seq ∧ nlmsgPid m 0 = some pid := by
  have hhdr := hm.header
  have htype : (nlmsgType m 0).isSome := (isSome_loadLE_iff (by decide)).mpr (by omega)
  have hseq : (nlmsgSeq m 0).isSome := (isSome_loadLE_iff (by decide)).mpr (by omega)
  have hpid : (nlmsgPid m 0).isSome := (isSome_loadLE_iff (by decide)).mpr (by omega)
  obtain ⟨type, htype⟩ := Option.isSome_iff_exists.mp htype
  obtain ⟨seq, hseq⟩ := Option.isSome_iff_exists.mp hseq
  obtain ⟨pid, hpid⟩ := Option.isSome_iff_exists.mp hpid
  exact ⟨type, seq, pid, hm.length, htype, hseq, hpid⟩

/-- How an answer ends a dump, if it does. -/
def ending (msg : Bytes) : Option Outcome :=
  if nlmsgType msg 0 = some NLMSG_DONE then some (.returned 0)
  else if nlmsgType msg 0 = some NLMSG_ERROR then
    if msg.length < nlmsgLength sizeofNlmsgerr then some (.error "ERROR truncated\n")
    else (nlmsgErrno msg 0).map Outcome.answers
  else none

/-- The callback for a message to someone else, which may be missing. -/
def junkCallback (junk : Option (RtnlFilter σ)) (x : SockaddrNl × Bytes) (s : σ) : σ × Int :=
  match junk with
  | none => (s, 0)
  | some junk => junk x.1 x.2 s

/-- A callback that fails ends the call with its result. -/
theorem callJunk_eq (who : SockaddrNl) (msg : Bytes) (s : σ) :
    callJunk junk who msg s =
      if (junkCallback junk (who, msg) s).2 < 0 then
        .error ((junkCallback junk (who, msg) s).1,
          .returned (junkCallback junk (who, msg) s).2)
      else .ok (junkCallback junk (who, msg) s).1 := by
  cases junk <;> rfl

/-- `rtnl_dump_filter` as a receiver: only an answer ends the dump, and any other answer goes to
the filter. The messages that are no answers go to `junk`. -/
def dumpReceiver (rth : RtnlHandle) (filter : RtnlFilter σ) (junk : Option (RtnlFilter σ)) :
    Receiver σ where
  ending x s :=
    if isDumpAnswer rth x.1 x.2 = some true then (ending x.2).map fun outcome => (s, outcome)
    else none
  callback x s :=
    if isDumpAnswer rth x.1 x.2 = some true then filter x.1 x.2 s else junkCallback junk x s

/-- The number of an error can be read where the message is long enough for one. -/
theorem exists_errno (hlong : ¬m.length < nlmsgLength sizeofNlmsgerr) :
    ∃ errno, nlmsgErrno m 0 = some errno := by
  refine Option.isSome_iff_exists.mp ?_
  rw [nlmsgErrno, Option.isSome_map, isSome_loadLE_iff (by decide)]
  simp only [nlmsgLength, sizeofNlmsgerr, nlmsgHdrlen] at hlong ⊢
  omega

/-- What the code does with a message is what the receiver does. -/
theorem dumpMessage_eq (hm : IsFrame 16 4 m) (s : σ) :
    dumpMessage rth filter junk who m s =
      some ((dumpReceiver rth filter junk).serve s (who, m)) := by
  obtain ⟨type, seq, pid, hlen, htype, hseq, hpid⟩ := exists_fields hm
  obtain ⟨b, hb⟩ : ∃ b, isDumpAnswer rth who m = some b := ⟨_, by
    rw [isDumpAnswer, hpid, hseq]
    rfl⟩
  -- A message that is no answer goes to `junk`. An answer is the end, an error or data.
  cases b with
  | false =>
      simp only [dumpMessage, hb, Option.bind_eq_bind, Option.bind_some, Bool.not_false, if_true,
        callJunk_eq, Receiver.serve, dumpReceiver, Option.some.injEq, Bool.false_eq_true, if_false]
  | true =>
      simp only [dumpMessage, hb, Option.bind_eq_bind, Option.bind_some, Bool.not_true,
        Bool.false_eq_true, if_false, htype, Receiver.serve, dumpReceiver, if_true, ending,
        Option.some.injEq]
      by_cases hdone : type = NLMSG_DONE
      · simp only [if_pos hdone, Option.map_some]
      · by_cases herror : type = NLMSG_ERROR
        · by_cases hshort : m.length < nlmsgLength sizeofNlmsgerr
          · simp only [if_neg hdone, if_pos herror, hlen, Option.bind_some, if_pos hshort,
              Option.map_some]
          · obtain ⟨errno, herrno⟩ := exists_errno hshort
            simp only [if_neg hdone, if_pos herror, hlen, Option.bind_some, if_neg hshort, herrno,
              Option.map_some]
        · simp only [if_neg hdone, if_neg herror, Option.map_none]

/-- A message of four bytes of data to process 9. -/
def someMessage (type seq : UInt8) : Bytes :=
  [20, 0, 0, 0, type, 0, 2, 0, seq, 0, 0, 0, 9, 0, 0, 0, 0, 0, 0, 0]

/-- The message of the example has 20 bytes. -/
theorem length_someMessage (type seq : UInt8) : (someMessage type seq).length = 20 := rfl

/-- It states its own length. -/
theorem isFrame_someMessage (type seq : UInt8) : IsFrame 16 4 (someMessage type seq) :=
  ⟨show 16 ≤ 20 by decide, rfl⟩

/-- A datagram of two messages. -/
def somePacket (type seq type' seq' : UInt8) : Packet 16384 where
  who := ⟨0⟩
  bytes := someMessage type seq ++ someMessage type' seq'
  truncated := false
  msgs := [someMessage type seq, someMessage type' seq']
  size_le := show 40 ≤ 16384 by decide
  ne_nil := List.cons_ne_nil _ _
  layout := by
    have hnext (type seq : UInt8) : alignUp 4 (someMessage type seq).length = 20 :=
      alignUp_of_dvd (by decide) (show 4 ∣ 20 by decide)
    refine .cons (List.prefix_append _ _) ?_
    rw [hnext]
    refine .cons List.prefix_rfl ?_
    rw [hnext]
    exact .nil 40
  frames := by simp [isFrame_someMessage]

/-- A dump with one answer and its end, with a message to someone else in between, where the
filter and `junk` count. -/
example : (dumpReceiver ⟨9, 6, 5⟩ (fun _ _ s => ((s.1 + 1, s.2), 1))
    (some fun _ _ s => ((s.1, s.2 + 1), 0))).deliver ((0, 0) : Nat × Nat)
      (messages [.packet (somePacket 16 5 16 4), .interrupted, .packet (somePacket 3 5 16 5)]) =
    ((1, 1), .returned 0) := by decide

end MyTestFiles.Proofs.Netlink
