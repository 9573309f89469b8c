import MyTestFiles.Proofs.Stun.Checksum

/-!
# `MyTestFiles.Proofs.Stun.SanityCheck`: what a frame that passes the check is like

`Sane` is what the check is for: an IP header of at least five words inside the frame, a
UDP datagram up to its end that holds a STUN header, and a right checksum if there is one.

The checksum helper only knows headers of exactly five words and answers 0, which is its
answer for a right checksum, for all others. `passes_iff` is what the check really tests.
`sane_iff` says for which frames that is enough.

The test compares lengths that come from the frame itself, so a frame may state anything.
`passes_iff` has no assumption on it but that its length fits a `uint16_t`.

* `Framed` is the part of the check that looks at lengths and at the protocol. It is right for all
  frames, and `passes_iff_framed` leaves only the answer of the checksum helper.
* `sane_iff` has two kinds of frames on which the check errs. A header length field below 5 is not
  tested at all, and one above 5 has the checksum ignored.
* The frame of the counterexample has one word of options and a checksum that is wrong and not
  zero.
-/

set_option autoImplicit false

namespace MyTestFiles.Proofs.Stun

open MyTestFiles.Lib
open MyTestFiles.Lib.OnesComplement
open MyTestFiles.Stun

/-! ### The frames -/

/-- The bytes behind the IP header. -/
def datagram (f : List UInt8) : List UInt8 := f.drop (4 * Iphdr.ihl f)

/-- The UDP length field. -/
def udpLength (f : List UInt8) : Nat := ntohs (Udphdr.len (datagram f))

/-- The one's complement sum over the pseudo-header and the datagram is all ones. -/
def ChecksumRight (f : List UInt8) : Prop :=
  total (bigEndian (pseudoHeader f (udpLength f) ++ datagram f)) = 0xffff

instance (f : List UInt8) : Decidable (ChecksumRight f) := inferInstanceAs (Decidable (_ = _))

/-- A frame with a STUN message. -/
structure Sane (f : List UInt8) : Prop where
  protocol : Iphdr.protocol f = ipprotoUdp
  headerWords : 5 ≤ Iphdr.ihl f
  header : 4 * Iphdr.ihl f ≤ f.length
  udpHeader : 8 ≤ (datagram f).length
  udpLength : udpLength f = (datagram f).length
  stunHeader : 8 + 20 ≤ (datagram f).length
  checksum : Udphdr.check (datagram f) = 0 ∨ ChecksumRight f

/-- A frame that passes the checks of the protocol and of the lengths. -/
structure Framed (f : List UInt8) : Prop where
  sizeofIphdr : 20 ≤ f.length
  protocol : Iphdr.protocol f = ipprotoUdp
  header : 4 * Iphdr.ihl f ≤ f.length
  udpLength : udpLength f = (datagram f).length
  stunHeader : 8 + 20 ≤ (datagram f).length

/-! ### The check -/

section Check
variable {frame : Frame}

/-- The datagram is what follows the IP header in the frame. -/
theorem length_datagram (f : List UInt8) : (datagram f).length = f.length - 4 * Iphdr.ihl f :=
  List.length_drop

/-- The check is a conjunction: the lengths and the protocol, and the answer of the checksum
helper for a frame with a checksum. -/
theorem passes_iff_framed :
    sanityCheckPacketFrame (some frame) = 0 ↔
      Framed frame.bytes ∧ (Udphdr.check (datagram frame.bytes) = 0 ∨
        udpCksum frame.bytes (datagram frame.bytes) (udpLength frame.bytes) = 0) := by
  have hlen := length_datagram frame.bytes
  have hdatagram : frame.bytes.drop (Iphdr.ihl frame.bytes * 4) = datagram frame.bytes := by
    rw [Nat.mul_comm, datagram]
  have hudpLength : ntohs (Udphdr.len (datagram frame.bytes)) = udpLength frame.bytes := rfl
  simp only [sanityCheckPacketFrame, hdatagram, hudpLength, sizeofIphdr, sizeofUdphdr,
    sizeofStunHeader]
  -- one case for each return, in the order of the source
  split_ifs with hiphdr hprotocol hheader hudphdr hudplen hstun hcheck hcksum
  · exact iff_of_false (by decide) fun h => absurd h.1.sizeofIphdr (by omega)
  · exact iff_of_false (by decide) fun h => hprotocol h.1.protocol
  · exact iff_of_false (by decide) fun h => absurd h.1.header (by omega)
  · exact iff_of_false (by decide) fun h => absurd h.1.stunHeader (by omega)
  · exact iff_of_false (by decide) fun h => absurd h.1.udpLength (by omega)
  · exact iff_of_false (by decide) fun h => absurd h.1.stunHeader (by omega)
  · exact iff_of_false (by decide) fun h => h.2.elim hcheck hcksum
  all_goals
    have hframed : Framed frame.bytes :=
      { sizeofIphdr := by omega
        protocol := not_not.mp hprotocol
        header := by omega
        udpLength := by omega
        stunHeader := by omega }
  · exact iff_of_true rfl ⟨hframed, .inr (not_not.mp hcksum)⟩
  · exact iff_of_true rfl ⟨hframed, .inl (not_not.mp hcheck)⟩

/-- What the check tests: a checksum only behind a header of exactly five words. -/
theorem passes_iff :
    sanityCheckPacketFrame (some frame) = 0 ↔
      Framed frame.bytes ∧ (Iphdr.ihl frame.bytes = 5 →
        Udphdr.check (datagram frame.bytes) = 0 ∨ ChecksumRight frame.bytes) := by
  rw [passes_iff_framed]
  refine and_congr_right fun hframed => ?_
  by_cases hihl : Iphdr.ihl frame.bytes = 5
  · have hlen := length_datagram frame.bytes
    have hlt := frame.length_lt
    rw [udpCksum_eq_zero hihl hframed.sizeofIphdr hframed.udpLength.symm
      (by rw [hframed.udpLength]; omega)]
    exact ⟨fun h _ => h, fun h => h hihl⟩
  · have hzero : udpCksum frame.bytes (datagram frame.bytes) (udpLength frame.bytes) = 0 :=
      if_neg hihl
    exact iff_of_true (.inr hzero) fun h => absurd h hihl

/-- A frame that passes is sane unless its header length field is below 5, or above 5 with
a checksum that is present and wrong. -/
theorem sane_iff :
    (sanityCheckPacketFrame (some frame) = 0 → Sane frame.bytes) ↔
      (Framed frame.bytes → 5 ≤ Iphdr.ihl frame.bytes ∧ (5 < Iphdr.ihl frame.bytes →
        Udphdr.check (datagram frame.bytes) = 0 ∨ ChecksumRight frame.bytes)) := by
  rw [passes_iff]
  constructor
  · intro hsane hframed
    by_cases hihl : Iphdr.ihl frame.bytes = 5
    · exact ⟨by omega, fun h => absurd hihl (by omega)⟩
    · have h := hsane ⟨hframed, fun h => absurd h hihl⟩
      exact ⟨h.headerWords, fun _ => h.checksum⟩
  -- With a header of five words the checksum has been checked by the code itself.
  · intro hmeets ⟨hframed, hfive⟩
    obtain ⟨hwords, hoptions⟩ := hmeets hframed
    have hchecksum : Udphdr.check (datagram frame.bytes) = 0 ∨ ChecksumRight frame.bytes :=
      (Nat.eq_or_lt_of_le hwords).elim (fun h => hfive h.symm) hoptions
    exact
      { protocol := hframed.protocol
        headerWords := hwords
        header := hframed.header
        udpHeader := by have := hframed.stunHeader; omega
        udpLength := hframed.udpLength
        stunHeader := hframed.stunHeader
        checksum := hchecksum }

end Check

/-- A frame whose header carries one word of options, with a wrong checksum. -/
def optionsFrame : Frame where
  bytes :=
    [0x46, 0, 0, 52, 0, 0, 0x40, 0, 64, 17, 0, 0, 192, 168, 0, 1, 192, 168, 0, 2, 1, 1, 1, 1,
      0x0d, 0x96, 0x0d, 0x96, 0, 28, 0, 1,
      0, 1, 0, 0, 0x21, 0x12, 0xa4, 0x42, 0, 0, 0, 0, 0, 0, 0, 0, 0, 0, 0, 0]
  length_lt := by decide

/-- A frame with a wrong checksum behind an IP header of six words passes. -/
theorem sanityCheck_not_sane :
    sanityCheckPacketFrame (some optionsFrame) = 0 ∧ ¬Sane optionsFrame.bytes := by
  have hwrong : ¬(Udphdr.check (datagram optionsFrame.bytes) = 0 ∨
      ChecksumRight optionsFrame.bytes) := by decide
  exact ⟨by decide, fun h => hwrong h.checksum⟩

/-- The same datagram behind a header without options is dropped. -/
example (frame : Frame) (h : frame.bytes =
    0x45 :: (optionsFrame.bytes.drop 1).take 19 ++ datagram optionsFrame.bytes) :
    sanityCheckPacketFrame (some frame) = -1 := by
  simp only [sanityCheckPacketFrame, h]
  decide

end MyTestFiles.Proofs.Stun
