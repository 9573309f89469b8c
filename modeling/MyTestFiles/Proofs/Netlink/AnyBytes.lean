import MyTestFiles.Proofs.Netlink.Demux

/-!
# `MyTestFiles.Proofs.Netlink.AnyBytes`: datagrams with any bytes

A message is looked at only where it fits into the bytes left, with the length that it states.
So whatever a datagram holds, no field is read outside it (`rtnlDumpFilter_isSome`).

* `Walk` says which messages such a datagram has. They are frames inside the datagram, so a field
  of a header is always there to be read.
* The callbacks get the bytes of a message and may do with them whatever they like.
* A truncated message, or bytes that are left over, is reported and ends the call or is passed
  over, as the source does, and is not read either.

`rtnlDumpFilter_isSome` is by a chain of three facts: no visit of a message faults, so no loop
over the messages of a datagram does, and so no run of the receive loop. Only the first of them
looks at fields of a header.

The statement has no assumption on the callbacks, on the order of the arrivals or on the handle.
It says nothing about what is printed or returned, which `Proofs.Netlink.Demux` does for whole
messages.
-/

set_option autoImplicit false

namespace MyTestFiles.Proofs.Netlink

open MyTestFiles.Lib MyTestFiles.Netlink

variable {σ : Type} {rth : RtnlHandle} {filter : RtnlFilter σ} {junk : Option (RtnlFilter σ)}
  {buf m : Bytes} {h : Nat} {who : SockaddrNl}

/-- A loop over frames does not fault where no visit does. -/
theorem visits_isSome {ρ : Type} {visit : σ → Nat → Option (Except ρ σ)} {fs : List (Nat × Nat)}
    (hvisit : ∀ f ∈ fs, ∀ s, (visit s f.1).isSome) (s : σ) : (visits visit s fs).isSome := by
  induction fs generalizing s with
  | nil => rfl
  | cons f fs ih =>
      obtain ⟨r, hr⟩ := Option.isSome_iff_exists.mp (hvisit f (by simp) s)
      rw [visits, hr]
      cases r with
      | error r => rfl
      | ok s' => exact ih (fun g hg => hvisit g (by simp [hg])) s'

/-- What lies at a place where a message fits is one. -/
theorem exists_messageAt {n : Nat} (hn : nlmsgLen buf h = some n) (hhdr : 16 ≤ n)
    (hfit : h + n ≤ buf.length) : ∃ m, messageAt buf h = some m ∧ IsFrame 16 4 m := by
  have hlen : ((buf.drop h).take n).length = n := by
    rw [List.length_take, List.length_drop]
    omega
  refine ⟨(buf.drop h).take n, by rw [messageAt, hn, Option.map_some], ⟨by omega, ?_⟩⟩
  obtain ⟨k, hk⟩ := Option.isSome_iff_exists.mp
    ((isSome_ofLE_iff 4 ((buf.drop h).take n)).mpr (by omega))
  have hsame := (holds_take_drop buf h n).loadLE hk
  rw [show loadLE 4 buf h = some n from hn] at hsame
  rw [hk, ← hsame, hlen]

/-- The pass over a message does not fault. -/
theorem dumpMessage_isSome (hm : IsFrame 16 4 m) (s : σ) :
    (dumpMessage rth filter junk who m s).isSome := by
  obtain ⟨type, seq, pid, hlen, htype, hseq, hpid⟩ := exists_fields hm
  simp only [dumpMessage, isDumpAnswer, hpid, hseq, htype, hlen, Option.bind_eq_bind,
    Option.bind_some]
  split
  · rfl
  · split
    · rfl
    · split
      · split
        · rfl
        · next hlong =>
            have hread : (nlmsgErrno m 0).isSome := by
              rw [nlmsgErrno, Option.isSome_map, isSome_loadLE_iff (by decide)]
              simp only [nlmsgLength, sizeofNlmsgerr, nlmsgHdrlen] at hlong ⊢
              omega
            obtain ⟨errno, herrno⟩ := Option.isSome_iff_exists.mp hread
            rw [herrno]
            rfl
      · rfl

/-- Nor does the pass over a datagram, whatever its bytes. -/
theorem dumpDatagram_isSome (rth : RtnlHandle) (filter : RtnlFilter σ)
    (junk : Option (RtnlFilter σ)) (who : SockaddrNl) (bytes : Bytes) (s : σ) :
    (dumpDatagram rth filter junk who bytes s).isSome := by
  obtain ⟨fs, q, left, hwalk⟩ : ∃ fs q left,
      Walk nlmsgHdrlen (nlmsgLen bytes) nlmsgAlign 0 bytes.length fs q left :=
    exists_walk (by decide) (le_alignUp (by decide)) 0 bytes.length fun q _ hq =>
      (isSome_loadLE_iff (by decide)).mpr (by
        simp only [nlmsgHdrlen] at hq
        omega)
  have hcount := hwalk.length_le (by decide) (le_alignUp (by decide))
  rw [dumpDatagram, walk_eq _ hwalk s (by omega), Option.isSome_map]
  refine visits_isSome (fun f hf s => ?_) s
  obtain ⟨hlen, hhdr, -, hfit⟩ := hwalk.mem_bounds (le_alignUp (by decide)) hf
  obtain ⟨m, hm, hframe⟩ := exists_messageAt hlen hhdr (by omega)
  rw [hm]
  exact dumpMessage_isSome hframe s

/-- Whatever the bytes of the datagrams are, `rtnl_dump_filter` reads nothing outside them. -/
theorem rtnlDumpFilter_isSome (rth : RtnlHandle) (filter : RtnlFilter σ)
    (junk : Option (RtnlFilter σ)) (s : σ) (calls : List Received) :
    (rtnlDumpFilter rth filter junk s calls).isSome := by
  -- Whatever an arrival does, the function returns or goes on with a state of the caller.
  induction calls generalizing s with
  | nil => rfl
  | cons call calls ih =>
      cases call with
      | interrupted => exact ih s
      | failed =>
          rw [rtnlDumpFilter, Option.isSome_map]
          exact ih s
      | datagram who namelen bytes truncated =>
          by_cases hend : bytes = []
          · rw [rtnlDumpFilter, if_pos hend]
            rfl
          · obtain ⟨r, hr⟩ :=
              Option.isSome_iff_exists.mp (dumpDatagram_isSome rth filter junk who bytes s)
            rw [rtnlDumpFilter, if_neg hend, hr]
            cases r with
            | error r => rfl
            | ok r =>
                obtain ⟨s', q, status⟩ := r
                show Option.isSome (if truncated then _ else _) = true
                split
                · rw [Option.isSome_map]
                  exact ih s'
                · split
                  · rfl
                  · exact ih s'

end MyTestFiles.Proofs.Netlink
