import MyTestFiles.Lib.Bpf

/-!
# `MyTestFiles.Stun.Filters`: the packet filters for STUN

`raw_pf_stun.c` attaches a filter to a raw UDP socket, where a packet starts with its IP
header, and `sniff_stun.c` to a packet socket, where the Ethernet header comes first. The
tables are those of the two sources.

An entry of a table is an opcode, the two jump offsets and a constant, as in the arrays of the
source. What the entries mean is in `Lib.Bpf`: `exec` runs a table on the bytes of a packet, and a
packet is kept where the constant that is returned is not zero.

Both tables check the same things of an IP packet in almost the same order: a unicast destination,
no fragment offset, the type and the length of a STUN message behind the UDP header, and the magic
cookie. The second table has two checks more, on the type of the frame and on the protocol.
-/

set_option autoImplicit false

namespace MyTestFiles.Stun

open MyTestFiles.Lib.Bpf

/-- `BPF_code` of `raw_pf_stun.c`. -/
def rawFilter : List SockFilter :=
  [ ⟨0x30, 0, 0, 0x00000010⟩,
    ⟨0x35, 10, 0, 0x000000e0⟩,
    ⟨0x28, 0, 0, 0x00000006⟩,
    ⟨0x45, 8, 0, 0x00001fff⟩,
    ⟨0xb1, 0, 0, 0x00000000⟩,
    ⟨0x50, 0, 0, 0x00000008⟩,
    ⟨0x15, 0, 5, 0x00000000⟩,
    ⟨0x48, 0, 0, 0x0000000a⟩,
    ⟨0x45, 3, 0, 0x00000003⟩,
    ⟨0x40, 0, 0, 0x0000000c⟩,
    ⟨0x15, 0, 1, 0x2112a442⟩,
    ⟨0x6, 0, 0, 0x00000100⟩,
    ⟨0x6, 0, 0, 0x00000000⟩ ]

/-- `BPF_code` of `sniff_stun.c`. -/
def sniffFilter : List SockFilter :=
  [ ⟨0x28, 0, 0, 0x0000000c⟩,
    ⟨0x15, 0, 14, 0x00000800⟩,
    ⟨0x30, 0, 0, 0x0000001e⟩,
    ⟨0x35, 12, 0, 0x000000e0⟩,
    ⟨0x30, 0, 0, 0x00000017⟩,
    ⟨0x15, 0, 10, 0x00000011⟩,
    ⟨0x28, 0, 0, 0x00000014⟩,
    ⟨0x45, 8, 0, 0x00001fff⟩,
    ⟨0xb1, 0, 0, 0x0000000e⟩,
    ⟨0x50, 0, 0, 0x00000016⟩,
    ⟨0x15, 0, 5, 0x00000000⟩,
    ⟨0x48, 0, 0, 0x00000018⟩,
    ⟨0x45, 3, 0, 0x00000003⟩,
    ⟨0x40, 0, 0, 0x0000001a⟩,
    ⟨0x15, 0, 1, 0x2112a442⟩,
    ⟨0x6, 0, 0, 0x000005ea⟩,
    ⟨0x6, 0, 0, 0x00000000⟩ ]

end MyTestFiles.Stun
