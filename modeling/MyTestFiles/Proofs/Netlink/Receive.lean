import MyTestFiles.Proofs.Netlink.Demux

/-!
# `MyTestFiles.Proofs.Netlink.Receive`: the loop of `rtnl_talk` and of `rtnl_listen`

This loop walks over its datagrams in another way than `rtnl_dump_filter`: it compares lengths
without a sign, and it counts down the bytes that are left. It meets the same messages all the
same, as long as the datagrams fit the buffer.

* `forPass_eq` is a pass at a message that lies within the bytes left, and `forPass_layout` the
  loop over a datagram. Here the lengths are small, so no conversion between the integer types
  changes them.
* What is printed is taken out of the comparison. `quietly` drops it, and a handler whose work
  does not depend on it satisfies `IgnoresPrinted`.
* `receiveLoop_eq_demux`: apart from what is printed, it does not matter how the messages come.
* `rtnlListen_eq`: `rtnl_listen` calls its handler for every message, in order and once, until
  the handler fails.

The two ways to walk over a datagram are proved to meet the same messages by one relation,
`Layout`, so `Proofs.Netlink.Demux` and this module share what they know about datagrams and
differ in the loops only.
-/

set_option autoImplicit false

namespace MyTestFiles.Proofs.Netlink

open MyTestFiles.Lib MyTestFiles.Netlink

section Receive
variable {τ : Type} (handle : SockaddrNl → Bytes → τ → Option (Except (τ × Outcome) τ))

/-! ### One datagram -/

/-- A message whose length was read: it fits, and the loop goes on behind its padding. -/
theorem forAt_eq {buf m : Bytes} {h : Nat} {status : Int} (hm : Holds buf h m)
    (hframe : IsFrame 16 4 m) (hle : (m.length : Int) ≤ status)
    (hstatus : status ≤ 16384) (who : SockaddrNl) (truncated : Bool) (s : τ) :
    forAt handle who buf truncated s h status m.length = (handle who m s).map fun r => match r with
      | .error r => .done (.error r)
      | .ok s => .again (s, h + nlmsgAlign m.length, status - nlmsgAlign m.length) := by
  have hhdr := hframe.header
  have hrest : int32 ((m.length : Int) - nlmsgHdrlen) = (m.length : Int) - nlmsgHdrlen :=
    int32_of_range (by simp only [nlmsgHdrlen]; omega) (by simp only [nlmsgHdrlen]; omega)
  have hfits : ¬((m.length : Int) - nlmsgHdrlen < 0 ∨ (m.length : Int) > status) := by
    simp only [nlmsgHdrlen]
    omega
  have hlen : uint32 m.length = m.length := uint32_natCast (by omega)
  have halign : nlmsgAlign m.length < m.length + 4 := alignUp_lt (by decide) _
  have hleft : int32 (status - nlmsgAlign m.length) = status - nlmsgAlign m.length :=
    int32_of_range (by omega) (by omega)
  rw [forAt, hrest, if_neg hfits, messageAt_of_holds hm hframe, hlen, hleft]
  simp only [Option.bind_eq_bind, Option.bind_some]
  cases handle who m s with
  | none => rfl
  | some r => cases r <;> rfl

/-- A pass that has a header to look at reads the length of the message. -/
theorem forPass_of_length {buf : Bytes} {h len : Nat} {status : Int}
    (hlong : ¬(0 ≤ status ∧ status < nlmsgHdrlen)) (hlen : nlmsgLen buf h = some len)
    (who : SockaddrNl) (truncated : Bool) (s : τ) :
    forPass handle who buf truncated (s, h, status) =
      forAt handle who buf truncated s h status (int32 len) := by
  rw [forPass, if_neg hlong, hlen]
  exact Option.bind_some _ _

/-- A pass at a message that lies within the bytes left. -/
theorem forPass_eq {buf m : Bytes} {h : Nat} {status : Int} (hm : Holds buf h m)
    (hframe : IsFrame 16 4 m) (hle : (m.length : Int) ≤ status) (hstatus : status ≤ 16384)
    (who : SockaddrNl) (truncated : Bool) (s : τ) :
    forPass handle who buf truncated (s, h, status) = (handle who m s).map fun r => match r with
      | .error r => .done (.error r)
      | .ok s => .again (s, h + nlmsgAlign m.length, status - nlmsgAlign m.length) := by
  have hhdr := hframe.header
  have hlong : ¬((0 : Int) ≤ status ∧ status < nlmsgHdrlen) := by
    simp only [nlmsgHdrlen]
    omega
  have hlen : int32 m.length = m.length := int32_of_range (by omega) (by omega)
  rw [forPass_of_length handle hlong (nlmsgLen_of_holds hm hframe), hlen]
  exact forAt_eq handle hm hframe hle hstatus who truncated s

/-- The loop over the messages of a datagram meets them and leaves nothing. -/
theorem forPass_layout {buf : Bytes} {p e : Nat} {msgs : List Bytes} (h : Layout 4 buf p msgs e)
    (hframes : ∀ m ∈ msgs, IsFrame 16 4 m) (who : SockaddrNl) (truncated : Bool)
    (hsize : e - p ≤ 16384) {fuel : Nat} (hfuel : msgs.length < fuel) (s : τ) :
    loop (forPass handle who buf truncated) fuel (s, p, (e - p : Int)) =
      (handleAll handle who s msgs).map fun r => r.map fun s => (s, 0) := by
  obtain ⟨fuel, rfl⟩ : ∃ more, fuel = more + 1 := ⟨fuel - 1, by omega⟩
  induction h generalizing s fuel with
  | nil p =>
      have hpass : forPass handle who buf truncated (s, p, ((p : Int) - p)) =
          some (.done (.ok (s, 0))) := by
        have hstop : (0 : Int) ≤ 0 ∧ (0 : Int) < nlmsgHdrlen := by decide
        rw [sub_self, forPass, if_pos hstop]
      rw [loop_of_done hpass]
      rfl
  | @cons p e m msgs hm hrest ih =>
      obtain ⟨fuel, rfl⟩ : ∃ more, fuel = more + 1 :=
        ⟨fuel - 1, by simp only [List.length_cons] at hfuel; omega⟩
      have hle := hrest.le
      have halign := le_alignUp (a := 4) (by decide) m.length
      have hpass := forPass_eq handle hm (hframes m (by simp))
        (show (m.length : Int) ≤ e - p by omega) (by omega) who truncated s
      rw [handleAll]
      cases hmsg : handle who m s with
      | none =>
          rw [hmsg] at hpass
          simp [loop, hpass]
      | some r =>
          rw [hmsg] at hpass
          cases r with
          | error r =>
              rw [loop_of_done hpass]
              rfl
          | ok s' =>
              -- the padding of the message is passed too
              have hleft : (e - p : Int) - nlmsgAlign m.length =
                  (e - (p + alignUp 4 m.length : Nat) : Int) := by
                rw [nlmsgAlign]
                push_cast
                omega
              rw [loop_of_again hpass, hleft]
              exact ih (fun g hg => hframes g (by simp [hg])) (by omega) s' fuel
                (by simp only [List.length_cons] at hfuel; omega)

/-- The loop over a datagram that `recvmsg` has put into a buffer. -/
theorem forDatagram_eq {size : Nat} (hsize : size ≤ 16384) (p : Packet size) (buf : Bytes)
    (s : τ) :
    loop (forPass handle p.who (received buf p.bytes) p.truncated) (p.bytes.length + 2)
        (s, 0, (p.bytes.length : Int)) =
      (handleAll handle p.who s p.msgs).map fun r => r.map fun s => (s, 0) := by
  have hlayout := p.layout.append_right (buf.drop p.bytes.length)
  have hlength := p.layout.length_le (by decide) fun m hm => (p.frames m hm).ne_nil (by decide)
  have hfits := p.size_le.trans hsize
  have hzero : ((p.bytes.length : Int) - (0 : Nat)) = p.bytes.length := by omega
  rw [← hzero]
  exact forPass_layout handle hlayout p.frames p.who p.truncated (by omega) (by omega) s

/-! ### The whole loop -/

section Quiet
variable (quiet : τ → τ)

/-- A result apart from what has been printed, which `quiet` takes away. -/
def quietly : Except (τ × Outcome) τ → Except (τ × Outcome) τ
  | .error r => .error (quiet r.1, r.2)
  | .ok s => .ok (quiet s)

/-- A handler apart from what it prints. -/
def handleQuietly (who : SockaddrNl) (msg : Bytes) (s : τ) :
    Option (Except (τ × Outcome) τ) := (handle who msg s).map (quietly quiet)

variable {handle quiet}

/-- What has been printed makes no difference to the handler. -/
def IgnoresPrinted (handle : SockaddrNl → Bytes → τ → Option (Except (τ × Outcome) τ))
    (quiet : τ → τ) : Prop :=
  ∀ who msg s, handleQuietly handle quiet who msg (quiet s) = handleQuietly handle quiet who msg s

/-- The messages of a datagram, apart from what is printed. -/
theorem handleAll_quietly (hignores : IgnoresPrinted handle quiet) (who : SockaddrNl) (s : τ)
    (msgs : List Bytes) :
    (handleAll handle who s msgs).map (quietly quiet) =
      handleAll (handleQuietly handle quiet) who (quiet s) msgs := by
  induction msgs generalizing s with
  | nil => rfl
  | cons msg msgs ih =>
      rw [handleAll, handleAll, hignores, handleQuietly]
      cases handle who msg s with
      | none => rfl
      | some r =>
          cases r with
          | error r => rfl
          | ok s' => exact ih s'

/-- Apart from what is printed, how the messages are split into datagrams, and what interrupts
the calls in between, makes no difference. -/
theorem receiveLoop_eq_demux {size : Nat} (hsize : size ≤ 16384)
    (hignores : IgnoresPrinted handle quiet) (note : String → τ → τ)
    (hnote : ∀ text s, quiet (note text s) = quiet s) (lengthText : Nat → String) (s : τ)
    (buf : Bytes) (arrivals : List (Arrival size)) :
    (receiveLoop handle note lengthText s buf (arrivals.map Arrival.received)).map
        (fun r => (quiet r.1, r.2)) =
      demux (handleQuietly handle quiet) (quiet s) (messages arrivals) := by
  induction arrivals generalizing s buf with
  | nil => rfl
  | cons a arrivals ih =>
      cases a with
      | interrupted => exact ih s buf
      | failed =>
          rw [List.map_cons, Arrival.received, receiveLoop, ih, hnote]
          rfl
      | packet p =>
          rw [List.map_cons, Arrival.received, receiveLoop, if_neg p.ne_nil,
            if_neg (by decide : ¬(12 ≠ 12)),
            forDatagram_eq handle hsize, messages, demux_append, ← handleAll_quietly hignores]
          cases handleAll handle p.who s p.msgs with
          | none => rfl
          | some r =>
              cases r with
              | error r => rfl
              | ok s' =>
                  -- with the text about a truncated datagram or without it
                  cases p.truncated with
                  | true =>
                      simp only [Option.map_some, Except.map, Option.bind_eq_bind, Option.bind_some,
                        if_true, ih, hnote]
                      rfl
                  | false =>
                      simp only [Option.map_some, Except.map, Option.bind_eq_bind, Option.bind_some,
                        Bool.false_eq_true, if_false, ne_eq, not_true_eq_false, ih]
                      rfl

end Quiet
end Receive

/-! ### `rtnl_listen` -/

section Listen
variable {σ : Type} (handler : RtnlFilter σ)

/-- `rtnl_listen` as a receiver: no message ends the call, and every message goes to the
handler. -/
def listenReceiver : Receiver σ where
  ending _ _ := none
  callback x s := handler x.1 x.2 s

/-- A handler that gets the messages one by one, until it fails. -/
def listenAll : σ → List (SockaddrNl × Bytes) → σ × Outcome := (listenReceiver handler).deliver

/-- The handler gets the first message, and the others where it does not fail. -/
theorem listenAll_cons (s : σ) (x : SockaddrNl × Bytes) (rest : List (SockaddrNl × Bytes)) :
    listenAll handler s (x :: rest) =
      if (handler x.1 x.2 s).2 < 0 then
        ((handler x.1 x.2 s).1, .returned (handler x.1 x.2 s).2)
      else listenAll handler (handler x.1 x.2 s).1 rest := by
  have hserve : (listenReceiver handler).serve s x =
      if (handler x.1 x.2 s).2 < 0 then
        .error ((handler x.1 x.2 s).1, .returned (handler x.1 x.2 s).2)
      else .ok (handler x.1 x.2 s).1 := rfl
  by_cases herr : (handler x.1 x.2 s).2 < 0
  · rw [listenAll, Receiver.deliver, hserve, if_pos herr, if_pos herr]
  · rw [listenAll, Receiver.deliver, hserve, if_neg herr, if_neg herr]

/-- What the code does with a message, apart from what is printed. -/
theorem listenMessage_quietly (who : SockaddrNl) (msg : Bytes) (s : σ × List String) :
    handleQuietly (listenMessage handler) (fun s => (s.1, [])) who msg s =
      some (if (handler who msg s.1).2 < 0 then
          .error (((handler who msg s.1).1, []), .returned (handler who msg s.1).2)
        else .ok ((handler who msg s.1).1, [])) := by
  rw [handleQuietly, listenMessage, Option.map_some, apply_ite (quietly _)]
  rfl

/-- The messages one by one, apart from what is printed. -/
theorem demux_listenMessage (s : σ) (msgs : List (SockaddrNl × Bytes)) :
    demux (handleQuietly (listenMessage handler) fun s => (s.1, [])) (s, []) msgs =
      some (((listenAll handler s msgs).1, []), (listenAll handler s msgs).2) := by
  induction msgs generalizing s with
  | nil => rfl
  | cons x msgs ih =>
      obtain ⟨who, msg⟩ := x
      rw [demux, listenMessage_quietly, listenAll_cons]
      by_cases herr : (handler who msg s).2 < 0
      · simp only [if_pos herr]
        rfl
      · simp only [if_neg herr]
        exact ih (handler who msg s).1

end Listen

end MyTestFiles.Proofs.Netlink
