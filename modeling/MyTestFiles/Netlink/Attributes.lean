import MyTestFiles.Lib.CInt
import MyTestFiles.Lib.Frames

/-!
# `MyTestFiles.Netlink.Attributes`: routing attributes of `libnetlink.c`

A netlink message is a header and its data, and much of the data is a list of attributes: each
a length, a type and some bytes, padded to a multiple of four. The functions here append
attributes to a message or to another attribute, and find them again.

* A message or an attribute is a place in a buffer of bytes, and the fields of its header are
  little-endian numbers there. An access outside the buffer is a fault (`none`).
* `nlmsg_len` has 32 bits, and the macros of the kernel's headers add to it without a sign. So
  the length of a message with another attribute wraps, and a bound that is checked against the
  wrapped length lets it through. `appendAttr` adds as the source does.
* `rta_len` and `rta_type` have 16 bits, and what does not fit is cut off by the store.
* A bound `maxlen`, and a number of bytes to add, is an `int` that is not negative.
* What a function prints to `stderr` is part of its result.
-/

set_option autoImplicit false

namespace MyTestFiles.Netlink

open MyTestFiles.Lib

/-- A buffer. -/
abbrev Bytes := List UInt8

/-! ### The macros -/

/-- `RTA_ALIGN(len)`: `(len + 3) & ~3`, before it wraps. -/
def rtaAlign (len : Nat) : Nat := alignUp 4 len

/-- `RTA_LENGTH(len)`: an attribute with `len` bytes of data. -/
def rtaLength (len : Nat) : Nat := rtaAlign 4 + len

/-- `NLMSG_ALIGN(len)`: the same as `RTA_ALIGN(len)`. -/
def nlmsgAlign (len : Nat) : Nat := alignUp 4 len

/-- Reads `rta->rta_len`. -/
def rtaLen (buf : Bytes) (rta : Nat) : Option Nat := loadLE 2 buf rta

/-- Reads `rta->rta_type`. -/
def rtaType (buf : Bytes) (rta : Nat) : Option Nat := loadLE 2 buf (rta + 2)

/-- The `RTA_PAYLOAD(rta)` bytes at `RTA_DATA(rta)`. -/
def rtaData (buf : Bytes) (rta : Nat) : Option Bytes := do
  let len ← rtaLen buf rta
  let data := (buf.drop (rta + rtaLength 0)).take (len - rtaLength 0)
  if data.length = len - rtaLength 0 then some data else none

/-! ### Adding attributes -/

/-- An attribute of `size` bytes behind the message or attribute at `base`, whose length stands
in its first `width` bytes. Where it does not fit, nothing is written but `text`. The aligned
length and the sum are 32-bit numbers, which wrap where `width` is 4. -/
def appendAttr (width size : Nat) (text : String) (buf : Bytes) (base maxlen type : Nat)
    (data : Bytes) : Option (Except String Bytes) := do
  let total ← loadLE width buf base
  let tail := uint32 (nlmsgAlign total)
  let newLen := uint32 (tail + size)
  if newLen > maxlen then some (.error text)
  else do
    let rta := base + tail
    let buf ← storeBytes buf (rta + 2) (toLE 2 type)
    let buf ← storeBytes buf rta (toLE 2 (rtaLength data.length))
    let buf ← storeBytes buf (rta + rtaLength 0) data
    let buf ← storeBytes buf base (toLE width newLen)
    some (.ok buf)

/-- `addattr32`: an attribute of four bytes in a message. -/
def addattr32 (buf : Bytes) (n maxlen type data : Nat) : Option (Except String Bytes) :=
  appendAttr 4 (rtaLength 4) s!"addattr32: Error! max allowed bound {maxlen} exceeded\n" buf n
    maxlen type (toLE 4 data)

/-- `addattr_l`: an attribute of any data in a message. -/
def addattrL (buf : Bytes) (n maxlen type : Nat) (data : Bytes) : Option (Except String Bytes) :=
  appendAttr 4 (rtaAlign (rtaLength data.length))
    s!"addattr_l ERROR: message exceeded bound of {maxlen}\n" buf n maxlen type data

/-- `rta_addattr32`: an attribute of four bytes in another attribute. -/
def rtaAddattr32 (buf : Bytes) (rta maxlen type data : Nat) : Option (Except String Bytes) :=
  appendAttr 2 (rtaLength 4) s!"rta_addattr32: Error! max allowed bound {maxlen} exceeded\n" buf
    rta maxlen type (toLE 4 data)

/-- `rta_addattr_l`: an attribute of any data in another attribute. -/
def rtaAddattrL (buf : Bytes) (rta maxlen type : Nat) (data : Bytes) :
    Option (Except String Bytes) :=
  appendAttr 2 (rtaAlign (rtaLength data.length))
    s!"rta_addattr_l: Error! max allowed bound {maxlen} exceeded\n" buf rta maxlen type data

/-- `addraw_l`: raw data behind a message, with its padding set to zero. -/
def addrawL (buf : Bytes) (n maxlen : Nat) (data : Bytes) : Option (Except String Bytes) := do
  let total ← loadLE 4 buf n
  let tail := uint32 (nlmsgAlign total)
  let newLen := uint32 (tail + nlmsgAlign data.length)
  if newLen > maxlen then some (.error s!"addraw_l ERROR: message exceeded bound of {maxlen}\n")
  else do
    let buf ← storeBytes buf (n + tail) data
    let zeros := List.replicate (nlmsgAlign data.length - data.length) 0
    let buf ← storeBytes buf (n + tail + data.length) zeros
    let buf ← storeBytes buf n (toLE 4 newLen)
    some (.ok buf)

/-! ### Parsing attributes -/

/-- `while (RTA_OK(rta, len)) { visit; rta = RTA_NEXT(rta, len); }` -/
def rtaLoop {σ : Type} (buf : Bytes) (visit : σ → Nat → Option (Except Empty σ)) (s : σ)
    (rta : Nat) (len : Int) : Option (σ × Nat × Int) := do
  match ← loop (walkBody 4 (rtaLen buf) rtaAlign visit) (len.toNat + 1) (s, rta, len) with
  | .ok r => some r

/-- `if (len) fprintf(..);` -/
def deficit (buf : Bytes) (rta : Nat) (len : Int) : Option (Option String) :=
  if len = 0 then some none
  else do
    let n ← rtaLen buf rta
    some (some s!"!!!Deficit {len}, rta_len={n}\n")

/-- `if (rta->rta_type <= max) tb[rta->rta_type] = rta;` -/
def parseVisit (buf : Bytes) (max : Nat) (tb : List (Option Nat)) (rta : Nat) :
    Option (Except Empty (List (Option Nat))) := do
  let type ← rtaType buf rta
  some (.ok (if type ≤ max then tb.set type (some rta) else tb))

/-- `parse_rtattr`: the table `tb` of `max + 1` pointers, and what it prints. -/
def parseRtattr (buf : Bytes) (max rta : Nat) (len : Int) :
    Option (List (Option Nat) × Option String) := do
  let (tb, rta, len) ← rtaLoop buf (parseVisit buf max) (List.replicate (max + 1) none) rta len
  let text ← deficit buf rta len
  some (tb, text)

/-- `if (rta->rta_type <= max && i < max) tb[i++] = rta;` -/
def byindexVisit (buf : Bytes) (max : Nat) (s : List (Option Nat) × Nat) (rta : Nat) :
    Option (Except Empty (List (Option Nat) × Nat)) := do
  let type ← rtaType buf rta
  some (.ok (if type ≤ max ∧ s.2 < max then (s.1.set s.2 (some rta), s.2 + 1) else s))

/-- `parse_rtattr_byindex`: the table `tb` of `max` pointers, how many it found, and what it
prints. -/
def parseRtattrByindex (buf : Bytes) (max rta : Nat) (len : Int) :
    Option (List (Option Nat) × Nat × Option String) := do
  let ((tb, i), rta, len) ←
    rtaLoop buf (byindexVisit buf max) (List.replicate max none, 0) rta len
  let text ← deficit buf rta len
  some (tb, i, text)

/-- `parse_rtattr_nested`: the attributes within an attribute. -/
def parseRtattrNested (buf : Bytes) (max rta : Nat) :
    Option (List (Option Nat) × Option String) := do
  let len ← rtaLen buf rta
  parseRtattr buf max (rta + rtaLength 0) (len - rtaLength 0)

end MyTestFiles.Netlink
