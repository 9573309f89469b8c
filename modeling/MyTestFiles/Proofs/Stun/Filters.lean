import MyTestFiles.Stun.Filters

/-!
# `MyTestFiles.Proofs.Stun.Filters`: the two filters are one filter

`StunPacket` says which IP packets the raw socket filter is for: unicast UDP packets that
are not fragments and carry a STUN message behind an IP header of any length.
`accepts_rawFilter` is that the program accepts exactly these, and `filters` adds that the
program for Ethernet frames is the same one behind its own two checks.

* Both tables are decoded entry by entry (`decode_rawFilter`, `decode_sniffFilter`). The packet is
  arbitrary from there on, a packet that ends anywhere included.
* The sniffer's program has the offsets of its loads moved by the 14 bytes of the frame header, so
  both programs are one sequence of checks at an offset (`ChecksAt`).
* The raw socket filter does not look at the protocol, as its socket only gets UDP packets.

`filters_return` says that no packet makes a program run off its end, since every jump stays
inside the table. The two constants that are returned for a packet that is kept differ in how many
bytes are kept of it, and the filters agree on which packets these are.
-/

set_option autoImplicit false

namespace MyTestFiles.Proofs.Stun

open MyTestFiles.Lib.Bpf
open MyTestFiles.Stun

/-- The IP header length in bytes. -/
def headerLength (p : List UInt8) : Nat := 4 * (field p 0 1 % 16)

/-- The loads of a filter for STUN, as pairs of an offset and a width. -/
def loads (p : List UInt8) : List (Nat × Nat) :=
  [(16, 1), (6, 2), (0, 1), (headerLength p + 8, 1), (headerLength p + 10, 2),
    (headerLength p + 12, 4)]

/-- A unicast IP packet that is no fragment, with a STUN message behind its UDP header. -/
@[mk_iff]
structure StunPacket (p : List UInt8) : Prop where
  inRange : ∀ l ∈ loads p, l.1 + l.2 ≤ p.length
  unicast : field p 16 1 < 0xe0
  unfragmented : field p 6 2 % 2 ^ 13 = 0
  request : field p (headerLength p + 8) 1 = 0
  aligned : field p (headerLength p + 10) 2 % 4 = 0
  cookie : field p (headerLength p + 12) 4 = 0x2112a442

/-! ### The masks of the programs -/

section Masks
variable {a k : Nat}

/-- The outcome of an equality test. -/
theorem jeq_eq_true : Test.jeq.holds a k = true ↔ a = k := beq_iff_eq

/-- The outcome of a comparison. -/
theorem jge_eq_false : Test.jge.holds a k = false ↔ a < k := by
  simp [Test.holds]

/-- A comparison with `2 ^ n - 1` looks at the low `n` bits. -/
theorem jset_eq_false {n : Nat} (hk : k = 2 ^ n - 1) :
    Test.jset.holds a k = false ↔ a % 2 ^ n = 0 := by
  rw [hk, ← Nat.and_two_pow_sub_one_eq_mod]
  simp [Test.holds]

end Masks

/-! ### The programs -/

/-- The instructions of the raw socket filter. -/
def rawProgram : List Instr :=
  [ .ldAbs .b 16, .jump .jge 0xe0 10 0, .ldAbs .h 6, .jump .jset 0x1fff 8 0, .ldxMsh 0,
    .ldInd .b 8, .jump .jeq 0 0 5, .ldInd .h 10, .jump .jset 3 3 0, .ldInd .w 12,
    .jump .jeq 0x2112a442 0 1, .ret 256, .ret 0 ]

/-- The instructions of the filter for Ethernet frames. -/
def sniffProgram : List Instr :=
  [ .ldAbs .h 12, .jump .jeq 0x800 0 14, .ldAbs .b 30, .jump .jge 0xe0 12 0, .ldAbs .b 23,
    .jump .jeq 17 0 10, .ldAbs .h 20, .jump .jset 0x1fff 8 0, .ldxMsh 14, .ldInd .b 22,
    .jump .jeq 0 0 5, .ldInd .h 24, .jump .jset 3 3 0, .ldInd .w 26,
    .jump .jeq 0x2112a442 0 1, .ret 1514, .ret 0 ]

/-- The table of the raw socket filter decodes. -/
theorem decode_rawFilter : rawFilter.mapM decode = some rawProgram := by decide

/-- The table of the filter for Ethernet frames decodes. -/
theorem decode_sniffFilter : sniffFilter.mapM decode = some sniffProgram := by decide

/-- Neither program can run off its end, so each packet is kept or rejected. -/
theorem filters_return (p : List UInt8) :
    (∃ n, runFilter rawFilter p = some n) ∧ ∃ n, runFilter sniffFilter p = some n :=
  ⟨runFilter_of_closed decode_rawFilter (by decide) p,
    runFilter_of_closed decode_sniffFilter (by decide) p⟩

/-- What both programs check, with the IP header at byte `o`. -/
def ChecksAt (p : List UInt8) (o : Nat) : Prop :=
  ∃ destination, load p .b (o + 16) = some destination ∧ destination < 0xe0 ∧
  ∃ fragment, load p .h (o + 6) = some fragment ∧ fragment % 2 ^ 13 = 0 ∧
  ∃ ihl, load p .b o = some ihl ∧
  load p .b (4 * (ihl &&& 0xf) + (o + 8)) = some 0 ∧
  ∃ length, load p .h (4 * (ihl &&& 0xf) + (o + 10)) = some length ∧ length % 2 ^ 2 = 0 ∧
  load p .w (4 * (ihl &&& 0xf) + (o + 12)) = some 0x2112a442

section Programs
variable {p : List UInt8}

/-- The raw socket filter makes its checks at the start of the packet. -/
theorem passes_rawProgram : Passes p rawProgram 0 0 0 ↔ ChecksAt p 0 := by
  simp [rawProgram, ChecksAt, jeq_eq_true, jge_eq_false,
    jset_eq_false (show 8191 = 2 ^ 13 - 1 from rfl), jset_eq_false (show 3 = 2 ^ 2 - 1 from rfl)]

/-- The other filter makes two checks of its own, and the same checks behind the frame header. -/
theorem passes_sniffProgram :
    Passes p sniffProgram 0 0 0 ↔
      load p .h 12 = some 0x0800 ∧ load p .b 23 = some 17 ∧ ChecksAt p 14 := by
  simp only [sniffProgram, ChecksAt]
  simp [jeq_eq_true, jge_eq_false, jset_eq_false (show 8191 = 2 ^ 13 - 1 from rfl),
    jset_eq_false (show 3 = 2 ^ 2 - 1 from rfl)]
  intro _
  -- the destination address comes before the protocol in this program
  constructor
  · rintro ⟨destination, hload, hunicast, hprotocol, hrest⟩
    exact ⟨hprotocol, destination, hload, hunicast, hrest⟩
  · rintro ⟨hprotocol, destination, hload, hunicast, hrest⟩
    exact ⟨destination, hload, hunicast, hprotocol, hrest⟩

/-- The checks behind an Ethernet header. -/
theorem checksAt_drop {o : Nat} : ChecksAt (p.drop o) 0 ↔ ChecksAt p o := by
  have hswap : ∀ x k, o + (x + k) = x + (o + k) := fun x k => by omega
  simp only [ChecksAt, load_drop, hswap, Nat.zero_add, Nat.add_zero]

/-- The checks at the start of a packet are those for a STUN packet. -/
theorem checksAt_zero : ChecksAt p 0 ↔ StunPacket p := by
  have hmask : field p 0 1 &&& 0xf = field p 0 1 % 16 := Nat.and_two_pow_sub_one_eq_mod _ 4
  simp [ChecksAt, stunPacket_iff, load_eq_some, loads, headerLength, Size.bytes, hmask]
  constructor
  · rintro ⟨h16, hunicast, h6, hfragment, h0, ⟨h8, hrequest⟩, h10, haligned, h12, hcookie⟩
    exact ⟨⟨h16, h6, h0, h8, h10, h12⟩, hunicast, hfragment, hrequest.symm, haligned,
      hcookie.symm⟩
  · rintro ⟨⟨h16, h6, h0, h8, h10, h12⟩, hunicast, hfragment, hrequest, haligned, hcookie⟩
    exact ⟨h16, hunicast, h6, hfragment, h0, ⟨h8, hrequest.symm⟩, h10, haligned, h12,
      hcookie.symm⟩

end Programs

/-! ### The filters -/

/-- The program of `raw_pf_stun.c` accepts the STUN packets. -/
theorem accepts_rawFilter {p : List UInt8} : Accepts rawFilter p ↔ StunPacket p := by
  rw [accepts_iff_passes decode_rawFilter, passes_rawProgram, checksAt_zero]

/-- The program of `sniff_stun.c` is the same filter for IPv4 frames with UDP. -/
theorem accepts_sniffFilter {f : List UInt8} :
    Accepts sniffFilter f ↔
      (14 ≤ f.length ∧ field f 12 2 = 0x0800) ∧ (24 ≤ f.length ∧ field f 23 1 = 17) ∧
        Accepts rawFilter (f.drop 14) := by
  rw [accepts_iff_passes decode_sniffFilter, accepts_iff_passes decode_rawFilter,
    passes_rawProgram, checksAt_drop, passes_sniffProgram, load_eq_some, load_eq_some]
  simp only [Size.bytes, eq_comm]

/-- The two filters are the same filter at two layers. -/
theorem filters :
    (∀ p, Accepts rawFilter p ↔ StunPacket p) ∧
    (∀ f, 14 ≤ f.length → field f 12 2 = 0x0800 → 24 ≤ f.length → field f 23 1 = 17 →
      (Accepts sniffFilter f ↔ Accepts rawFilter (f.drop 14))) ∧
    ∀ f, Accepts sniffFilter f →
      (14 ≤ f.length ∧ field f 12 2 = 0x0800) ∧ (24 ≤ f.length ∧ field f 23 1 = 17) := by
  refine ⟨fun p => accepts_rawFilter, fun f hf hetherType hf' hprotocol => ?_, fun f h => ?_⟩
  · rw [accepts_sniffFilter]
    exact ⟨fun h => h.2.2, fun h => ⟨⟨hf, hetherType⟩, ⟨hf', hprotocol⟩, h⟩⟩
  · obtain ⟨hetherType, hprotocol, -⟩ := accepts_sniffFilter.mp h
    exact ⟨hetherType, hprotocol⟩

/-- A binding request without attributes, from its IP header on. -/
def bindingRequest : List UInt8 :=
  [0x45, 0, 0, 48, 0, 0, 0x40, 0, 64, 17, 0, 0, 192, 168, 0, 1, 192, 168, 0, 2,
    0x0d, 0x96, 0x0d, 0x96, 0, 28, 0, 0,
    0, 1, 0, 0, 0x21, 0x12, 0xa4, 0x42, 0, 0, 0, 0, 0, 0, 0, 0, 0, 0, 0, 0]

/-- The header of an Ethernet frame with an IP packet. -/
def ethernetHeader : List UInt8 := [2, 0, 0, 0, 0, 1, 2, 0, 0, 0, 0, 2, 0x08, 0x00]

/-- A binding request passes both filters. -/
theorem filters_bindingRequest :
    StunPacket bindingRequest ∧ Accepts sniffFilter (ethernetHeader ++ bindingRequest) := by
  have hraw : Accepts rawFilter bindingRequest := ⟨256, by decide, by decide⟩
  exact ⟨(filters.1 _).mp hraw,
    (filters.2.1 (ethernetHeader ++ bindingRequest) (by decide) (by decide) (by decide)
      (by decide)).mpr hraw⟩

/-- It is rejected when its header length field says one word more. -/
example : runFilter rawFilter (0x46 :: bindingRequest.drop 1) = some 0 := by decide

end MyTestFiles.Proofs.Stun
