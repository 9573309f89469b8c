import MyTestFiles.Lib.CInt

/-!
# `MyTestFiles.Stun.SanityCheck`: the sanity check of a received STUN frame

`test_packet.c` checks the headers and the UDP checksum of a frame before it reads the STUN
message in it. A pointer into the frame is the list of the bytes from there on, and the
host is little-endian. The messages that the check prints are left out.

* A frame starts with its IP header. The check reads the length of that header, the protocol, the
  length of the datagram and the checksum, each after a test that the frame is long enough for it.
* A read beyond the end of a list gives zero. The lengths are tested first, as in the source, so
  that no result depends on such a read.
* The sum is an `int` (`int32`), and the length of the datagram a `uint16_t` whose bytes are
  swapped.

The result is 0 for a frame that passes and -1 otherwise. The fields of a header are functions on
the list of the bytes from the header on, under the names that the structures of the source have
for them.
-/

set_option autoImplicit false

namespace MyTestFiles.Stun

open MyTestFiles.Lib

/-! ### Memory -/

/-- A byte behind a pointer. -/
def load8 (p : List UInt8) (i : Nat) : Nat := (p.getD i 0).toNat

/-- A `uint16_t` behind a pointer, on a little-endian host. -/
def load16 (p : List UInt8) (i : Nat) : Nat := load8 p i + 256 * load8 p (i + 1)

/-- A `uint16_t` in memory. -/
def bytes16 (v : Nat) : List UInt8 := [UInt8.ofNat v, UInt8.ofNat (v / 256)]

/-- The first bytes behind a pointer. -/
def memcpy (src : List UInt8) (n : Nat) : List UInt8 :=
  (List.range n).map fun i => src.getD i 0

/-- The bytes of a `uint16_t` swapped, which is `ntohs` as well. -/
def htons (v : Nat) : Nat := v % 256 * 256 + v / 256 % 256

/-- `ntohs` -/
def ntohs (v : Nat) : Nat := htons v

/-! ### The headers -/

/-- `sizeof(struct iphdr)` -/
def sizeofIphdr : Nat := 20
/-- `sizeof(struct udphdr)` -/
def sizeofUdphdr : Nat := 8
/-- The size of a STUN header. -/
def sizeofStunHeader : Nat := 20
/-- `IPPROTO_UDP` -/
def ipprotoUdp : Nat := 17

namespace Iphdr

/-- The number of words of the header, the low half of the first byte. -/
def ihl (ip : List UInt8) : Nat := load8 ip 0 % 16
/-- The protocol that the packet carries. -/
def protocol (ip : List UInt8) : Nat := load8 ip 9
/-- From the source address on. -/
def saddr (ip : List UInt8) : List UInt8 := ip.drop 12
/-- From the destination address on. -/
def daddr (ip : List UInt8) : List UInt8 := ip.drop 16

end Iphdr

namespace Udphdr

/-- The length of the datagram, in network byte order. -/
def len (udp : List UInt8) : Nat := load16 udp 4
/-- The checksum, in network byte order. Zero means that there is none. -/
def check (udp : List UInt8) : Nat := load16 udp 6

end Udphdr

/-! ### The checksum -/

/-- The loop of `in_cksum`: `w`, `nleft` and `sum` after it. -/
def inCksumLoop (w : List UInt8) (nleft : Nat) (sum : Int) : List UInt8 × Nat × Int :=
  match nleft with
  | nleft + 2 => inCksumLoop (w.drop 2) nleft (int32 (sum + load16 w 0))
  | nleft => (w, nleft, sum)

/-- `in_cksum`: the sum of the words, folded twice and complemented. -/
def inCksum (addr : List UInt8) (len : Nat) (csum : Int) : Nat :=
  let (w, nleft, sum) := inCksumLoop addr len csum
  let sum := if nleft = 1 then int32 (sum + htons (load8 w 0 * 256)) else sum
  -- `sum >> 16` and `sum & 0xffff`, and then `~sum` in 16 bits
  let sum := sum / 65536 + sum % 65536
  let sum := sum + sum / 65536
  ((-sum - 1) % 65536).toNat

/-- The pseudo-header as it lies in memory. -/
def phu (ip : List UInt8) (udpLen : Nat) : List UInt8 :=
  memcpy (Iphdr.saddr ip) 4 ++ memcpy (Iphdr.daddr ip) 4 ++
    [0, UInt8.ofNat ipprotoUdp] ++ bytes16 (htons udpLen)

/-- `udp_cksum`. Behind any other IP header than one of five words it answers 0. -/
def udpCksum (ip up : List UInt8) (udpLen : Nat) : Nat :=
  if Iphdr.ihl ip = 5 then
    let sp := phu ip udpLen
    inCksum up udpLen
      (load16 sp 0 + load16 sp 2 + load16 sp 4 + load16 sp 6 + load16 sp 8 + load16 sp 10 : Nat)
  else 0

/-! ### The check -/

/-- A buffer whose length fits the `uint16_t` that is passed with it. -/
structure Frame where
  bytes : List UInt8
  length_lt : bytes.length < 65536

/-- Zero for a frame that passes, and -1 otherwise. The frame is a pointer that may be
null. -/
def sanityCheckPacketFrame (frame : Option Frame) : Int :=
  match frame with
  | none => -1
  | some frame =>
    let ptr := frame.bytes
    let len := frame.bytes.length
    if len < sizeofIphdr then -1
    else
      let ipHeader := ptr
      if Iphdr.protocol ipHeader ≠ ipprotoUdp then -1
      else
        let iphdrLen := Iphdr.ihl ipHeader * 4
        if len < iphdrLen then -1
        else
          let ptr := ptr.drop iphdrLen
          let len := len - iphdrLen
          if len < sizeofUdphdr then -1
          else
            let udpHeader := ptr
            if ntohs (Udphdr.len udpHeader) ≠ len then -1
            else
              let len := len - sizeofUdphdr
              if len < sizeofStunHeader then -1
              else if Udphdr.check udpHeader ≠ 0 then
                let udpCsum := udpCksum ipHeader udpHeader (ntohs (Udphdr.len udpHeader))
                if udpCsum ≠ 0 then -1 else 0
              else 0

end MyTestFiles.Stun
