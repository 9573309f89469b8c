import MyTestFiles.Lib.CInt
import MyTestFiles.Netlink.Attributes

/-!
# `MyTestFiles.Netlink.Messages`: the receive loops of `libnetlink.c`

`rtnl_dump_filter`, `rtnl_talk` and `rtnl_listen` receive datagrams from the kernel until one of
them ends the call, and hand the messages in a datagram to the callbacks of their caller.
`rtnl_from_file` reads messages from a file.

* A socket is the list of what `recvmsg` comes to, call after call. A datagram has no more bytes
  than the buffer that it is received in, and one without bytes is the end of the socket. A loop
  that has used up the list is still waiting.
* A callback is a function on a state of its own, and its argument is the bytes of one message.
  It fails where it returns a negative number.
* A length is an `int` in the source, and the comparisons mix it with unsigned sizes. The two
  loops over messages do so in different ways, and each keeps its own body here.
* The texts are what goes to `stderr`, of `perror` its argument. An access outside a buffer is
  a fault (`none`).
-/

set_option autoImplicit false

namespace MyTestFiles.Netlink

open MyTestFiles.Lib

/-! ### Messages -/

/-- `NLMSG_HDRLEN` -/
def nlmsgHdrlen : Nat := 16

/-- `NLMSG_LENGTH(len)` -/
def nlmsgLength (len : Nat) : Nat := len + nlmsgHdrlen

/-- `sizeof(struct nlmsgerr)` -/
def sizeofNlmsgerr : Nat := 20

/-- The type of an error message, or of an acknowledgement. -/
def NLMSG_ERROR : Nat := 2

/-- The type of the message that ends a dump. -/
def NLMSG_DONE : Nat := 3

/-- The flag that asks for an acknowledgement. -/
def NLM_F_ACK : Nat := 4

/-- `h->nlmsg_len` -/
def nlmsgLen (buf : Bytes) (h : Nat) : Option Nat := loadLE 4 buf h

/-- `h->nlmsg_type` -/
def nlmsgType (buf : Bytes) (h : Nat) : Option Nat := loadLE 2 buf (h + 4)

/-- `h->nlmsg_flags` -/
def nlmsgFlags (buf : Bytes) (h : Nat) : Option Nat := loadLE 2 buf (h + 6)

/-- `h->nlmsg_seq` -/
def nlmsgSeq (buf : Bytes) (h : Nat) : Option Nat := loadLE 4 buf (h + 8)

/-- `h->nlmsg_pid` -/
def nlmsgPid (buf : Bytes) (h : Nat) : Option Nat := loadLE 4 buf (h + 12)

/-- `errno = -err->error`, where `err` is the data of the message `h`. -/
def nlmsgErrno (buf : Bytes) (h : Nat) : Option Int :=
  (loadLE 4 buf (h + nlmsgHdrlen)).map fun (n : Nat) => -int32 n

/-- `struct sockaddr_nl`, of which only the sender's `nl_pid` is read. -/
structure SockaddrNl where
  nlPid : Nat
  deriving DecidableEq

/-- `struct rtnl_handle`, with the `nl_pid` of `local`. -/
structure RtnlHandle where
  localPid : Nat
  seq : Nat
  dump : Nat

/-- What a call of `recvmsg` comes to. -/
inductive Received where
  /-- `EINTR` -/
  | interrupted
  /-- any other error -/
  | failed
  /-- A datagram, with its sender, the length of the sender's address and `MSG_TRUNC`. One
  without bytes is the end of the socket. -/
  | datagram (who : SockaddrNl) (namelen : Nat) (bytes : Bytes) (truncated : Bool)

/-- How a call ends. -/
inductive Outcome where
  | returned (ret : Int)
  /-- `-1` with a text -/
  | error (text : String)
  /-- `-1` after the kernel has reported an error, with the `errno` -/
  | answers (errno : Int)
  /-- `exit(1)` -/
  | exited (text : String)
  | waiting
  deriving DecidableEq

/-- `rtnl_filter_t`, with the state behind its `void *`. -/
abbrev RtnlFilter (σ : Type) := SockaddrNl → Bytes → σ → σ × Int

/-- The message at `h`. -/
def messageAt (buf : Bytes) (h : Nat) : Option Bytes :=
  (nlmsgLen buf h).map fun n => (buf.drop h).take n

section Receive
variable {τ : Type} (handle : SockaddrNl → Bytes → τ → Option (Except (τ × Outcome) τ))

/-! ### The loop of `rtnl_talk` and of `rtnl_listen` -/

/-- The body of the loop over the messages, where the message at `h` says that it has `len`
bytes. The subtraction wraps, so that a `len` below `-2147483632` gets through. -/
def forAt (who : SockaddrNl) (buf : Bytes) (truncated : Bool) (s : τ) (h : Nat)
    (status len : Int) : Option (Pass (τ × Nat × Int) (Except (τ × Outcome) (τ × Int))) :=
  if int32 (len - nlmsgHdrlen) < 0 ∨ len > status then
    if truncated then some (.done (.error (s, .error "Truncated message\n")))
    else some (.done (.error (s, .exited s!"!!!malformed message: len={len}\n")))
  else do
    let msg ← messageAt buf h
    match ← handle who msg s with
    | .error r => some (.done (.error r))
    | .ok s =>
        some (.again (s, h + nlmsgAlign (uint32 len), int32 (status - nlmsgAlign (uint32 len))))

/-- `for (h = buf; status >= sizeof(*h); ) { .. }`. The comparison is one of unsigned numbers,
so that a negative `status` goes on. -/
def forPass (who : SockaddrNl) (buf : Bytes) (truncated : Bool) :
    τ × Nat × Int → Option (Pass (τ × Nat × Int) (Except (τ × Outcome) (τ × Int)))
  | (s, h, status) =>
      if 0 ≤ status ∧ status < nlmsgHdrlen then some (.done (.ok (s, status)))
      else do
        let len ← nlmsgLen buf h
        forAt handle who buf truncated s h status (int32 len)

/-- The buffer after `recvmsg` has put a datagram into it. -/
def received (buf bytes : Bytes) : Bytes := bytes ++ buf.drop bytes.length

/-- `while (1) { status = recvmsg(..); .. }`, where `note` prints a text. -/
def receiveLoop (note : String → τ → τ) (lengthText : Nat → String) :
    τ → Bytes → List Received → Option (τ × Outcome)
  | s, _, [] => some (s, .waiting)
  | s, buf, .interrupted :: rest => receiveLoop note lengthText s buf rest
  | s, buf, .failed :: rest => receiveLoop note lengthText (note "OVERRUN" s) buf rest
  | s, buf, .datagram who namelen bytes truncated :: rest => do
      if bytes = [] then some (s, .error "EOF on netlink\n")
      else if namelen ≠ 12 then some (s, .exited (lengthText namelen))
      else do
        match ← loop (forPass handle who (received buf bytes) truncated) (bytes.length + 2)
            (s, 0, bytes.length) with
        | .error r => some r
        | .ok (s, status) =>
            if truncated then
              receiveLoop note lengthText (note "Message truncated\n" s) (received buf bytes) rest
            else if status ≠ 0 then some (s, .exited s!"!!!Remnant of size {status}\n")
            else receiveLoop note lengthText s (received buf bytes) rest

end Receive

section Callbacks
variable {σ : Type}

/-! ### `rtnl_dump_filter` -/

/-- `if (junk) { err = junk(..); if (err < 0) return err; }` -/
def callJunk (junk : Option (RtnlFilter σ)) (who : SockaddrNl) (msg : Bytes) (s : σ) :
    Except (σ × Outcome) σ :=
  match junk with
  | none => .ok s
  | some junk =>
      let (s, err) := junk who msg s
      if err < 0 then .error (s, .returned err) else .ok s

/-- The message is an answer to the dump request. -/
def isDumpAnswer (rth : RtnlHandle) (who : SockaddrNl) (msg : Bytes) : Option Bool := do
  let pid ← nlmsgPid msg 0
  let seq ← nlmsgSeq msg 0
  some (¬(who.nlPid ≠ 0 ∨ pid ≠ rth.localPid ∨ seq ≠ rth.dump))

/-- What `rtnl_dump_filter` does with a message. -/
def dumpMessage (rth : RtnlHandle) (filter : RtnlFilter σ) (junk : Option (RtnlFilter σ))
    (who : SockaddrNl) (msg : Bytes) (s : σ) : Option (Except (σ × Outcome) σ) := do
  if !(← isDumpAnswer rth who msg) then some (callJunk junk who msg s)
  else do
    let type ← nlmsgType msg 0
    if type = NLMSG_DONE then some (.error (s, .returned 0))
    else if type = NLMSG_ERROR then
      if (← nlmsgLen msg 0) < nlmsgLength sizeofNlmsgerr then
        some (.error (s, .error "ERROR truncated\n"))
      else do
        let errno ← nlmsgErrno msg 0
        some (.error (s, .answers errno))
    else
      let (s, err) := filter who msg s
      some (if err < 0 then .error (s, .returned err) else .ok s)

/-- `while (NLMSG_OK(h, status)) { .. h = NLMSG_NEXT(h, status); }` -/
def dumpDatagram (rth : RtnlHandle) (filter : RtnlFilter σ) (junk : Option (RtnlFilter σ))
    (who : SockaddrNl) (bytes : Bytes) (s : σ) : Option (Except (σ × Outcome) (σ × Nat × Int)) :=
  loop (walkBody nlmsgHdrlen (nlmsgLen bytes) nlmsgAlign fun s h => do
    let msg ← messageAt bytes h
    dumpMessage rth filter junk who msg s) (bytes.length + 1) (s, 0, bytes.length)

/-- `rtnl_dump_filter`, with what it prints before it comes to its outcome. -/
def rtnlDumpFilter (rth : RtnlHandle) (filter : RtnlFilter σ) (junk : Option (RtnlFilter σ)) :
    σ → List Received → Option (σ × Outcome × List String)
  | s, [] => some (s, .waiting, [])
  | s, .interrupted :: rest => rtnlDumpFilter rth filter junk s rest
  | s, .failed :: rest =>
      (rtnlDumpFilter rth filter junk s rest).map fun r => (r.1, r.2.1, "OVERRUN" :: r.2.2)
  | s, .datagram who _ bytes truncated :: rest => do
      if bytes = [] then some (s, .error "EOF on netlink\n", [])
      else
        match ← dumpDatagram rth filter junk who bytes s with
        | .error (s, outcome) => some (s, outcome, [])
        | .ok (s, _, status) =>
            if truncated then
              (rtnlDumpFilter rth filter junk s rest).map fun r =>
                (r.1, r.2.1, "Message truncated\n" :: r.2.2)
            else if status ≠ 0 then some (s, .exited s!"!!!Remnant of size {status}\n", [])
            else rtnlDumpFilter rth filter junk s rest

/-! ### `rtnl_talk` -/

/-- The request as `rtnl_talk` sends it: `seq` goes into its header, and an acknowledgement is
asked for where no answer is wanted. -/
def talkRequest (rtnl : RtnlHandle) (buf : Bytes) (n : Nat) (answer : Bool) :
    Option (RtnlHandle × Bytes) := do
  let seq := uint32 (rtnl.seq + 1)
  let buf ← storeBytes buf (n + 8) (toLE 4 seq)
  let buf ←
    if answer then some buf
    else do
      let flags ← nlmsgFlags buf n
      storeBytes buf (n + 6) (toLE 2 (flags ||| NLM_F_ACK))
  some ({ rtnl with seq := seq }, buf)

/-- What `rtnl_talk` works on while it receives: the state of `junk`, what it has printed, and
the message stored through `answer`. -/
structure Talk (σ : Type) where
  junk : σ
  printed : List String
  answer : Option Bytes

/-- What `rtnl_talk` does with a message. -/
def talkMessage (rtnl : RtnlHandle) (peer seq : Nat) (answer : Bool)
    (junk : Option (RtnlFilter σ)) (who : SockaddrNl) (msg : Bytes) (s : Talk σ) :
    Option (Except (Talk σ × Outcome) (Talk σ)) := do
  let pid ← nlmsgPid msg 0
  let msgSeq ← nlmsgSeq msg 0
  if who.nlPid ≠ peer ∨ pid ≠ rtnl.localPid ∨ msgSeq ≠ seq then
    match callJunk junk who msg s.junk with
    | .error (j, outcome) => some (.error ({ s with junk := j }, outcome))
    | .ok j => some (.ok { s with junk := j })
  else if (← nlmsgType msg 0) = NLMSG_ERROR then
    if (← nlmsgLen msg 0) - nlmsgHdrlen < sizeofNlmsgerr then
      some (.error (s, .error "ERROR truncated\n"))
    else do
      let errno ← nlmsgErrno msg 0
      if errno = 0 then
        some (.error (if answer then { s with answer := some msg } else s, .returned 0))
      else some (.error (s, .answers errno))
  else if answer then some (.error ({ s with answer := some msg }, .returned 0))
  else some (.ok { s with printed := s.printed ++ ["Unexpected reply!!!\n"] })

/-- The loop of `rtnl_talk` that receives, with its buffer. -/
def talkLoop (rtnl : RtnlHandle) (peer seq : Nat) (answer : Bool) (junk : Option (RtnlFilter σ)) :
    Talk σ → Bytes → List Received → Option (Talk σ × Outcome) :=
  receiveLoop (talkMessage rtnl peer seq answer junk)
    (fun text s => { s with printed := s.printed ++ [text] })
    fun namelen => s!"sender address length == {namelen}\n"

/-- `rtnl_talk` with the request at `n` of `buf`, where `sendmsg` takes it or not. The handle and
the request are left as they were sent. -/
def rtnlTalk (rtnl : RtnlHandle) (buf : Bytes) (n peer : Nat) (answer : Bool)
    (junk : Option (RtnlFilter σ)) (sent : Bool) (s : Talk σ) (calls : List Received) :
    Option (RtnlHandle × Bytes × Talk σ × Outcome) := do
  let (rtnl, request) ← talkRequest rtnl buf n answer
  if sent = false then some (rtnl, request, s, .error "Cannot talk to rtnetlink")
  else do
    let (s, outcome) ← talkLoop rtnl peer rtnl.seq answer junk s (List.replicate 16384 0) calls
    some (rtnl, request, s, outcome)

/-! ### `rtnl_listen` and `rtnl_from_file` -/

/-- `err = handler(&nladdr, h, jarg); if (err < 0) return err;` -/
def listenMessage (handler : RtnlFilter σ) (who : SockaddrNl) (msg : Bytes) (s : σ × List String) :
    Option (Except ((σ × List String) × Outcome) (σ × List String)) :=
  let (t, err) := handler who msg s.1
  some (if err < 0 then .error ((t, s.2), .returned err) else .ok (t, s.2))

/-- `rtnl_listen`, with the texts that it has printed. -/
def rtnlListen (handler : RtnlFilter σ) :
    σ × List String → Bytes → List Received → Option ((σ × List String) × Outcome) :=
  receiveLoop (listenMessage handler) (fun text s => (s.1, s.2 ++ [text]))
    fun namelen => s!"Sender address length == {namelen}\n"

/-- `fread(p, 1, n, rtnl)`: the buffer, the rest of the file and the number of bytes read. -/
def fread (buf : Bytes) (p n : Nat) (file : Bytes) : Option (Bytes × Bytes × Nat) :=
  (storeBytes buf p (file.take n)).map fun buf => (buf, file.drop n, (file.take n).length)

/-- The rest of a pass of `rtnl_from_file`, where the header that was read says that the message
has `len` bytes. -/
def fromFileAt (handler : RtnlFilter σ) (s : σ) (buf file : Bytes) (pos : Nat) (len : Int) :
    Option (Pass (σ × Bytes × Bytes × Nat) (σ × Outcome)) :=
  if len - nlmsgHdrlen < 0 ∨ len > buf.length then
    some (.done (s, .error s!"!!!malformed message: len={len} @{pos}\n"))
  else do
    let (buf, file, status) ← fread buf nlmsgHdrlen (nlmsgAlign (len - nlmsgHdrlen).toNat) file
    if status < len - nlmsgHdrlen then
      some (.done (s, .error "rtnl-from_file: truncated message\n"))
    else
      let (s, err) := handler ⟨0⟩ (buf.take len.toNat) s
      some (if err < 0 then .done (s, .returned err) else .again (s, buf, file, pos + status))

/-- A pass of `rtnl_from_file`, at the place `pos` of the file. -/
def fromFilePass (handler : RtnlFilter σ) : σ × Bytes × Bytes × Nat →
    Option (Pass (σ × Bytes × Bytes × Nat) (σ × Outcome))
  | (s, buf, file, pos) => do
      let (buf, file, status) ← fread buf 0 nlmsgHdrlen file
      if status = 0 then some (.done (s, .returned 0))
      else do
        let len ← nlmsgLen buf 0
        fromFileAt handler s buf file (pos + status) (int32 len)

/-- `rtnl_from_file`, with its buffer of 8192 bytes. `fread` returns a number of bytes, which is
not negative. -/
def rtnlFromFile (handler : RtnlFilter σ) (s : σ) (buf file : Bytes) : Option (σ × Outcome) :=
  loop (fromFilePass handler) (file.length + 1) (s, buf, file, 0)

end Callbacks

end MyTestFiles.Netlink
