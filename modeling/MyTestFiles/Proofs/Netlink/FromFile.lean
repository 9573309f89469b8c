import MyTestFiles.Proofs.Netlink.Receive

/-!
# `MyTestFiles.Proofs.Netlink.FromFile`: messages from a file

A file of whole messages goes to the handler of `rtnl_from_file` message by message, as the
messages of a socket go to that of `rtnl_listen` (`rtnlFromFile_eq`). The padding of the last
message may be missing. Where the last message is cut off, the handler does not get it
(`rtnlFromFile_truncated`).

The buffer has 8192 bytes. A message with a longer length field is not read, and the call ends
with an error. A message that `fread` cannot read in full ends it as well, so a file that was cut
off loses its last message and no other.

* A pass reads a header with one `fread` and the rest of the message with another.
  `fromFilePass_eq` puts the two reads together for a message that is in the file in full.
* The padding of a message is read along with it. At the end of the file it may be missing, and
  then `fread` returns less than it was asked for, which the source accepts.
* The address of the sender is that of the kernel for every message, as the source fills it in
  once (`fromNobody`).
-/

set_option autoImplicit false

namespace MyTestFiles.Proofs.Netlink

open MyTestFiles.Lib MyTestFiles.Netlink

section FromFile
variable {σ : Type} (handler : RtnlFilter σ) {full buf m : Bytes} {p e pos : Nat}
  {msgs : List Bytes}

/-- A read stores what the file has left, up to the bytes wanted. -/
theorem fread_eq (buf : Bytes) (p n : Nat) (file : Bytes)
    (hfit : p + (file.take n).length ≤ buf.length) :
    ∃ buf', fread buf p n file = some (buf', file.drop n, (file.take n).length) ∧
      storeBytes buf p (file.take n) = some buf' :=
  ⟨_, by rw [fread, storeBytes_of_le hfit, Option.map_some], storeBytes_of_le hfit⟩

/-- The header of a message, read into the buffer. -/
theorem fread_header (buf : Bytes) {file : Bytes} (hfile : file.take 16 = m.take 16)
    (hframe : IsFrame 16 4 m) (hbuf : 16 ≤ buf.length) :
    ∃ buf', fread buf 0 nlmsgHdrlen file = some (buf', file.drop 16, 16) ∧
      buf'.length = buf.length ∧ Holds buf' 0 (m.take 16) ∧ nlmsgLen buf' 0 = some m.length := by
  have hhdr := hframe.header
  have hlen : (m.take 16).length = 16 := by rw [List.length_take, min_eq_left hhdr]
  obtain ⟨buf', hread, hstore⟩ := fread_eq buf 0 16 file (by rw [hfile]; omega)
  rw [hfile] at hread hstore
  have hheld := Holds.of_store hstore
  have hofLE : ofLE 4 (m.take 16) = some m.length := by
    obtain ⟨n, hn⟩ := Option.isSome_iff_exists.mp
      ((isSome_ofLE_iff 4 (m.take 16)).mpr (by omega))
    have hsame : ofLE 4 (m.take 16 ++ m.drop 16) = some n := ofLE_append hn
    rw [List.take_append_drop, hframe.length] at hsame
    rw [hn, hsame]
  rw [hlen] at hread
  exact ⟨buf', hread, length_of_storeBytes hstore, hheld, hheld.loadLE hofLE⟩

/-- The data of a message behind its header, and the padding if it is there. -/
theorem fread_data (hm : Holds full p m) (hframe : IsFrame 16 4 m) (hsize : m.length ≤ 8192)
    (hbuf : buf.length = 8192) (hheader : Holds buf 0 (m.take 16)) :
    ∃ buf' status, fread buf nlmsgHdrlen (nlmsgAlign (m.length - 16)) (full.drop (p + 16)) =
        some (buf', full.drop (p + nlmsgAlign m.length), status) ∧
      m.length - 16 ≤ status ∧ buf'.length = 8192 ∧ Holds buf' 0 m := by
  have hhdr := hframe.header
  have hlen : (m.take 16).length = 16 := by rw [List.length_take, min_eq_left hhdr]
  have hrest : (m.drop 16).length = m.length - 16 := List.length_drop
  have halign : nlmsgAlign m.length = 16 + nlmsgAlign (m.length - 16) := by
    simp only [nlmsgAlign, alignUp]
    omega
  have hroom : nlmsgAlign (m.length - 16) ≤ 8176 := by
    simp only [nlmsgAlign, alignUp]
    omega
  have hpad : m.length - 16 ≤ nlmsgAlign (m.length - 16) := le_alignUp (by decide) _
  -- The file may end before the padding, so the data is a prefix of what is read.
  have hdata : m.drop 16 <+: (full.drop (p + 16)).take (nlmsgAlign (m.length - 16)) := by
    rw [List.prefix_take_iff]
    exact ⟨hm.drop hhdr, by omega⟩
  have htaken := List.length_take_le (nlmsgAlign (m.length - 16)) (full.drop (p + 16))
  obtain ⟨buf', hread, hstore⟩ :=
    fread_eq buf 16 (nlmsgAlign (m.length - 16)) (full.drop (p + 16)) (by omega)
  refine ⟨buf', _, ?_, (hrest ▸ hdata.length_le), by rw [length_of_storeBytes hstore, hbuf], ?_⟩
  · have hdrop : full.drop (p + nlmsgAlign m.length) =
        (full.drop (p + 16)).drop (nlmsgAlign (m.length - 16)) := by
      rw [List.drop_drop, halign, Nat.add_assoc]
    rw [hdrop]
    exact hread
  · -- the data is stored behind the header
    rw [← List.take_append_drop 16 m, holds_append_iff, hlen]
    exact ⟨hheader.store hstore (.inl (by omega)), hdata.trans (Holds.of_store hstore)⟩

/-- The pass over a message that is there in full hands it to the handler. -/
theorem fromFileAt_eq (hm : Holds full p m) (hframe : IsFrame 16 4 m) (hsize : m.length ≤ 8192)
    (hbuf : buf.length = 8192) (hheader : Holds buf 0 (m.take 16)) (s : σ) (pos : Nat) :
    ∃ buf' pos', buf'.length = 8192 ∧
      fromFileAt handler s buf (full.drop (p + 16)) pos m.length =
        some (if (handler ⟨0⟩ m s).2 < 0 then
            .done ((handler ⟨0⟩ m s).1, .returned (handler ⟨0⟩ m s).2)
          else .again ((handler ⟨0⟩ m s).1, buf', full.drop (p + nlmsgAlign m.length), pos')) := by
  have hhdr := hframe.header
  obtain ⟨buf', status, hread, hstatus, hlen, hheld⟩ := fread_data hm hframe hsize hbuf hheader
  have hfits : ¬((m.length : Int) - nlmsgHdrlen < 0 ∨ (m.length : Int) > buf.length) := by
    simp only [nlmsgHdrlen]
    omega
  have hdata : ((m.length : Int) - nlmsgHdrlen).toNat = m.length - 16 := by
    simp only [nlmsgHdrlen]
    omega
  have hwhole : ¬(status : Int) < (m.length : Int) - nlmsgHdrlen := by
    simp only [nlmsgHdrlen]
    omega
  have htake : buf'.take m.length = m := hheld.eq_take_drop
  -- The handler gets the start of the buffer, up to the length in the header.
  refine ⟨buf', pos + status, hlen, ?_⟩
  rw [fromFileAt, if_neg hfits, hdata, hread]
  simp only [Option.bind_eq_bind, Option.bind_some, if_neg hwhole, Int.toNat_natCast, htake]

/-- A pass reads the header first, and the rest with the length that the header states. -/
theorem fromFilePass_of_fread {file file' buf' : Bytes} {status n : Nat}
    (hread : fread buf 0 nlmsgHdrlen file = some (buf', file', status)) (hstatus : status ≠ 0)
    (hn : nlmsgLen buf' 0 = some n) (s : σ) (pos : Nat) :
    fromFilePass handler (s, buf, file, pos) =
      fromFileAt handler s buf' file' (pos + status) (int32 n) := by
  rw [fromFilePass, hread]
  show (if status = 0 then _ else _) = _
  rw [if_neg hstatus, hn]
  exact Option.bind_some _ _

/-- A pass at a message. -/
theorem fromFilePass_eq (hm : Holds full p m) (hframe : IsFrame 16 4 m) (hsize : m.length ≤ 8192)
    (hbuf : buf.length = 8192) (s : σ) (pos : Nat) :
    ∃ buf' pos', buf'.length = 8192 ∧ fromFilePass handler (s, buf, full.drop p, pos) =
      some (if (handler ⟨0⟩ m s).2 < 0 then
          .done ((handler ⟨0⟩ m s).1, .returned (handler ⟨0⟩ m s).2)
        else .again ((handler ⟨0⟩ m s).1, buf', full.drop (p + nlmsgAlign m.length), pos')) := by
  have hfile : (full.drop p).take 16 = m.take 16 := by
    rw [← hm.eq_take_drop, List.take_take, min_eq_left hframe.header]
  obtain ⟨buf', hread, hlen, hheader, hn⟩ := fread_header buf hfile hframe (by omega)
  have hint : int32 m.length = m.length := int32_of_range (by omega) (by omega)
  rw [List.drop_drop] at hread
  rw [fromFilePass_of_fread handler hread (by decide) hn, hint]
  exact fromFileAt_eq handler hm hframe hsize (by omega) hheader s (pos + 16)

/-- The messages of a file, as its handler gets them. -/
def fromNobody (msgs : List Bytes) : List (SockaddrNl × Bytes) := msgs.map fun m => (⟨0⟩, m)

/-- The passes at a list of messages. -/
theorem loop_fromFilePass (h : Layout 4 full p msgs e)
    (hframes : ∀ m ∈ msgs, IsFrame 16 4 m ∧ m.length ≤ 8192) (hbuf : buf.length = 8192) (s : σ)
    (pos fuel : Nat) :
    ∃ buf' pos', buf'.length = 8192 ∧
      loop (fromFilePass handler) (fuel + msgs.length) (s, buf, full.drop p, pos) =
        if (listenAll handler s (fromNobody msgs)).2 = .waiting then
          loop (fromFilePass handler) fuel
            ((listenAll handler s (fromNobody msgs)).1, buf', full.drop e, pos')
        else some (listenAll handler s (fromNobody msgs)) := by
  -- The induction is on the messages of the file. What a pass leaves in the buffer is not used.
  induction h generalizing s buf pos with
  | nil p => exact ⟨buf, pos, hbuf, rfl⟩
  | @cons p e m msgs hm _ ih =>
      obtain ⟨hframe, hsize⟩ := hframes m (by simp)
      obtain ⟨buf', pos', hbuf', hpass⟩ := fromFilePass_eq handler hm hframe hsize hbuf s pos
      by_cases herr : (handler ⟨0⟩ m s).2 < 0
      · rw [if_pos herr] at hpass
        have hall : listenAll handler s (fromNobody (m :: msgs)) =
            ((handler ⟨0⟩ m s).1, .returned (handler ⟨0⟩ m s).2) :=
          (listenAll_cons handler s _ _).trans (if_pos herr)
        refine ⟨buf', pos', hbuf', ?_⟩
        rw [hall, List.length_cons, ← Nat.add_assoc, loop_of_done hpass]
        rfl
      · rw [if_neg herr] at hpass
        have hall : listenAll handler s (fromNobody (m :: msgs)) =
            listenAll handler (handler ⟨0⟩ m s).1 (fromNobody msgs) :=
          (listenAll_cons handler s _ _).trans (if_neg herr)
        rw [hall, List.length_cons, ← Nat.add_assoc, loop_of_again hpass]
        exact ih (fun g hg => hframes g (by simp [hg])) hbuf' _ pos'

/-- The end of a file, as a pass that ends the loop with an outcome. -/
theorem rtnlFromFile_of_tail (h : Layout 4 full 0 msgs e)
    (hframes : ∀ m ∈ msgs, IsFrame 16 4 m ∧ m.length ≤ 8192) {outcome : Outcome}
    (htail : ∀ (t : σ) (buf' : Bytes) (pos : Nat), buf'.length = 8192 →
      fromFilePass handler (t, buf', full.drop e, pos) = some (.done (t, outcome)))
    (hbuf : buf.length = 8192) (s : σ) :
    rtnlFromFile handler s buf full =
      some (if (listenAll handler s (fromNobody msgs)).2 = .waiting then
          ((listenAll handler s (fromNobody msgs)).1, outcome)
        else listenAll handler s (fromNobody msgs)) := by
  have hcount := h.length_le (by decide) fun m hm => (hframes m hm).1.ne_nil (by decide)
  obtain ⟨fuel, hfuel⟩ : ∃ fuel, full.length + 1 = fuel + 1 + msgs.length :=
    ⟨full.length - msgs.length, by omega⟩
  obtain ⟨buf', pos', hbuf', hloop⟩ := loop_fromFilePass handler h hframes hbuf s 0 (fuel + 1)
  rw [List.drop_zero] at hloop
  rw [rtnlFromFile, hfuel, hloop, loop_of_done (htail _ buf' pos' hbuf'), apply_ite some]

/-- The handler of `rtnl_from_file` gets the messages of the file in order, until it fails. The
padding of the last message may be missing. -/
theorem rtnlFromFile_eq (h : Layout 4 full 0 msgs e)
    (hframes : ∀ m ∈ msgs, IsFrame 16 4 m ∧ m.length ≤ 8192) (hend : full.length ≤ e)
    (hbuf : buf.length = 8192) (s : σ) :
    rtnlFromFile handler s buf full =
      some (if (listenAll handler s (fromNobody msgs)).2 = .waiting then
          ((listenAll handler s (fromNobody msgs)).1, .returned 0)
        else listenAll handler s (fromNobody msgs)) := by
  refine rtnlFromFile_of_tail handler h hframes (fun t buf' pos hbuf' => ?_) hbuf s
  obtain ⟨buf'', hread, -⟩ := fread_eq buf' 0 nlmsgHdrlen [] (by simp)
  rw [fromFilePass, List.drop_eq_nil_of_le hend, hread]
  rfl

/-- Where the last message of the file is cut off behind its header, the handler gets the others,
and the function fails. -/
theorem rtnlFromFile_truncated (h : Layout 4 full 0 msgs e)
    (hframes : ∀ m ∈ msgs, IsFrame 16 4 m ∧ m.length ≤ 8192) {last : Bytes} {k : Nat}
    (hlast : IsFrame 16 4 last) (hsize : last.length ≤ 8192) (htail : full.drop e = last.take k)
    (hk : 16 ≤ k) (hcut : k < last.length) (hbuf : buf.length = 8192) (s : σ) :
    rtnlFromFile handler s buf full =
      some (if (listenAll handler s (fromNobody msgs)).2 = .waiting then
          ((listenAll handler s (fromNobody msgs)).1,
            .error "rtnl-from_file: truncated message\n")
        else listenAll handler s (fromNobody msgs)) := by
  refine rtnlFromFile_of_tail handler h hframes (fun t buf' pos hbuf' => ?_) hbuf s
  -- the header of the cut message is whole, and its length asks for more than the file has
  have hfile : (full.drop e).take 16 = last.take 16 := by
    rw [htail, List.take_take, min_eq_left hk]
  obtain ⟨buf1, hread, hlen1, -, hn⟩ := fread_header buf' hfile hlast (by omega)
  have hint : int32 last.length = last.length := int32_of_range (by omega) (by omega)
  rw [fromFilePass_of_fread handler hread (by decide) hn, hint]
  have hfits : ¬((last.length : Int) - nlmsgHdrlen < 0 ∨ (last.length : Int) > buf1.length) := by
    have hhdr := hlast.header
    simp only [nlmsgHdrlen]
    omega
  have hrest : ((full.drop e).drop 16).length = k - 16 := by
    rw [htail, List.length_drop, List.length_take]
    omega
  obtain ⟨n, hdata⟩ : ∃ n, nlmsgAlign ((last.length : Int) - nlmsgHdrlen).toNat = n := ⟨_, rfl⟩
  have htaken := List.length_take_le' n ((full.drop e).drop 16)
  have hmissing : ((((full.drop e).drop 16).take n).length : Int) <
      (last.length : Int) - nlmsgHdrlen := by
    simp only [nlmsgHdrlen]
    omega
  obtain ⟨buf2, hread2, -⟩ := fread_eq buf1 nlmsgHdrlen n ((full.drop e).drop 16) (by
    simp only [nlmsgHdrlen]
    omega)
  rw [fromFileAt, if_neg hfits, hdata, hread2]
  exact if_pos hmissing

end FromFile

/-- A file of two messages, and a handler that counts. -/
theorem rtnlFromFile_eq_two :
    rtnlFromFile (fun _ _ (n : Nat) => (n + 1, 0)) 0 (List.replicate 8192 0)
      (somePacket 16 4 16 5).bytes = some (2, .returned 0) :=
  rtnlFromFile_eq _ (somePacket 16 4 16 5).layout
    (by simp [somePacket, isFrame_someMessage, length_someMessage]) le_rfl List.length_replicate 0

/-- The second message is cut off behind its header. -/
theorem rtnlFromFile_truncated_second :
    rtnlFromFile (fun _ _ (n : Nat) => (n + 1, 0)) 0 (List.replicate 8192 0)
      (someMessage 16 4 ++ (someMessage 16 5).take 18) =
      some (1, .error "rtnl-from_file: truncated message\n") :=
  rtnlFromFile_truncated _ (e := 20) (k := 18)
    (.cons (List.prefix_append (someMessage 16 4) _) (.nil 20))
    (by simp [isFrame_someMessage, length_someMessage]) (isFrame_someMessage 16 5) (by decide) rfl
    (by decide) (by decide) List.length_replicate 0

end MyTestFiles.Proofs.Netlink
