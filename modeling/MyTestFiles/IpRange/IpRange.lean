import Mathlib

/-!
# `MyTestFiles.IpRange.IpRange`: ranges of addresses and network blocks

`-s` splits a range of addresses into network blocks, `-j` joins a list of blocks to ranges,
and `-J` joins the blocks and splits the ranges again. An address is a word in host order.
The texts of addresses are left out: a printed line is the values that it shows, and a block
of the input is what `str_to_netaddr` makes of its text.

* Bits are counted as in a prefix: bit 1 is the high bit of an address, bit 32 its low bit. `bit`
  has that bit set and `netmask` the bits up to it.
* `split_range` calls itself for the two halves of a block as long as the range is not the whole
  block. The model counts the nested calls along with the lines that are printed.
* The arithmetic on addresses is that of unsigned words of 32 bits, and the shifts are those of
  the source.
-/

set_option autoImplicit false

namespace MyTestFiles.IpRange

/-- `in_addr_t` -/
abbrev InAddr := BitVec 32

/-- `network_addr_t` -/
structure NetworkAddr where
  addr : InAddr
  pfx : Nat
  deriving DecidableEq

/-- The word `1 << count`. The processor takes the low five bits of the count, which is
negative for `bitno == 33`. -/
def bit (bitno : Nat) : InAddr := (1 : InAddr) <<< ((64 - bitno) % 32)

/-- `set_bit` -/
def setBit (addr : InAddr) (bitno : Nat) (val : Bool) : InAddr :=
  if val then addr ||| bit bitno else addr &&& ~~~(bit bitno)

/-- `netmask` -/
def netmask (pfx : Nat) : InAddr :=
  if pfx = 0 then ~~~(-1) else ~~~(bit pfx - 1)

/-- `broadcast`: the last address of the block. -/
def broadcast (addr : InAddr) (pfx : Nat) : InAddr := addr ||| ~~~(netmask pfx)

/-- `network`: the first address of the block. -/
def network (addr : InAddr) (pfx : Nat) : InAddr := addr &&& netmask pfx

/-- A printed line: `print_addr` or `print_addr_range`. -/
inductive Line where
  | addr (addr : InAddr) (pfx : Nat)
  | range (lo hi : InAddr)
  deriving DecidableEq

/-- The messages before `exit( 1 )`. -/
inductive Failure where
  | invalidMask (pfx : Nat)
  | outOfRange (lo hi addr : InAddr) (pfx : Nat) (bc : InAddr)
  deriving DecidableEq

/-- The lines that are printed, and the message of an exit. `calls` is not in the source: it
counts the calls of `split_range`. -/
structure Output where
  printed : List Line
  calls : Nat
  exit : Option Failure
  deriving DecidableEq

namespace Output

/-- No line, and no call. -/
def nothing : Output := ⟨[], 0, none⟩

/-- One more call of `split_range` around what it did. -/
def call (o : Output) : Output := { o with calls := o.calls + 1 }

/-- `o` and then `o'`, unless `o` exits. -/
def andThen (o o' : Output) : Output :=
  if o.exit.isSome then o
  else ⟨o.printed ++ o'.printed, o.calls + o'.calls, o'.exit⟩

end Output

/-- `split_range`. A prefix is never negative here. -/
def splitRange (addr : InAddr) (pfx : Nat) (lo hi : InAddr) : Output :=
  if hpfx : 32 < pfx then Output.call ⟨[], 0, some (.invalidMask pfx)⟩
  else
    let bc := broadcast addr pfx
    if lo < addr ∨ bc < hi then Output.call ⟨[], 0, some (.outOfRange lo hi addr pfx bc)⟩
    else if lo = addr ∧ hi = bc then Output.call ⟨[.addr addr pfx], 0, none⟩
    else
      let lowerHalf := addr
      let upperHalf := setBit addr (pfx + 1) true
      if hi < upperHalf then Output.call (splitRange lowerHalf (pfx + 1) lo hi)
      else if upperHalf ≤ lo then Output.call (splitRange upperHalf (pfx + 1) lo hi)
      else
        Output.call
          ((splitRange lowerHalf (pfx + 1) lo (broadcast lowerHalf (pfx + 1))).andThen
            (splitRange upperHalf (pfx + 1) upperHalf hi))
termination_by 33 - pfx

/-- A block as `str_to_netaddr` makes it: the prefix is checked, and the host bits of the
address are cleared. -/
abbrev Block := { na : NetworkAddr // na.pfx ≤ 32 ∧ network na.addr na.pfx = na.addr }

/-- The network of an address is its own network. -/
theorem network_network (addr : InAddr) (pfx : Nat) :
    network (network addr pfx) pfx = network addr pfx := by
  rw [network, network, BitVec.and_assoc, BitVec.and_self]

/-- `str_to_netaddr`, on an address and the number after the slash. There is no block where
it exits. -/
def strToNetaddr (addr : InAddr) (pfx : Int) : Option Block :=
  if h : 0 ≤ pfx ∧ pfx ≤ 32 then
    some ⟨⟨network addr pfx.toNat, pfx.toNat⟩, Int.toNat_le.mpr h.2,
      network_network addr pfx.toNat⟩
  else none

/-- `compar_netaddr`. It orders by the address and then by the prefix. -/
def comparNetaddr (na1 na2 : NetworkAddr) : Int :=
  if na1.addr < na2.addr then -1
  else if na2.addr < na1.addr then 1
  else if na1.pfx < na2.pfx then -1
  else if na2.pfx < na1.pfx then 1
  else 0

/-- `qsort` with `compar_netaddr`. -/
def sortNetaddrs (netaddrs : List NetworkAddr) : List NetworkAddr :=
  netaddrs.mergeSort fun na1 na2 => comparNetaddr na1 na2 ≤ 0

/-- `if ( Jflg ) split_range(0, 0, lo, hi); else print_addr_range( lo, hi );` -/
def printJoined (jflg : Bool) (lo hi : InAddr) : Output :=
  if jflg then splitRange 0 0 lo hi else ⟨[.range lo hi], 0, none⟩

/-- The loop of `netaddr_to_range` from a current range on, and the line after it. -/
def joinFrom (jflg : Bool) (lo hi : InAddr) : List NetworkAddr → Output
  | [] => printJoined jflg lo hi
  | na :: netaddrs =>
      if broadcast na.addr na.pfx ≤ hi then joinFrom jflg lo hi netaddrs
      else if na.addr = hi + 1 then joinFrom jflg lo (broadcast na.addr na.pfx) netaddrs
      else
        (printJoined jflg lo hi).andThen
          (joinFrom jflg na.addr (broadcast na.addr na.pfx) netaddrs)

/-- `netaddr_to_range` -/
def netaddrToRange (jflg : Bool) (netaddrs : List Block) : Output :=
  match sortNetaddrs (netaddrs.map Subtype.val) with
  | [] => Output.nothing
  | na :: rest => joinFrom jflg na.addr (broadcast na.addr na.pfx) rest

/-- `main` with `-s`: from the first address of one block to the last one of another. -/
def splitBetween (start stop : Block) : Output :=
  splitRange 0 0 (network start.val.addr start.val.pfx) (broadcast stop.val.addr stop.val.pfx)

end MyTestFiles.IpRange
