import MyTestFiles.Lib.Keyed
import MyTestFiles.Netlink.Messages

/-!
# `MyTestFiles.Netlink.LlMap`: the interfaces of `ll_map.c`

`ll_map.c` keeps what the kernel has told about the network interfaces: for each index a name, a
type and flags. `ll_remember_index` takes one message about an interface, `ll_init_map` asks the
kernel for all of them, and the other functions look an interface up by its index or its name.

* `idxmap` is an array of 16 chains, and a chain is a list of its records. The hardware address
  in a record is left out, since nothing reads it.
* A name is the bytes of a C string. An access outside a message, and a name that does not fit
  its field, is a fault (`none`).
* `IFLA_MAX` is whatever the kernel's headers say. Whether `malloc` has memory is an argument of
  each call of `ll_remember_index`.
* `ll_name_to_index` remembers its last answer in two static variables (`NameCache`). `LlOp` and
  `llStep` are the calls that may change what the file keeps, as a machine.

The three functions that look an interface up by its index return what its record has, and a
default for an index without a record. `ll_name_to_index` walks the chains in order, so with equal
names it answers the first that it meets, unless the cache has another.
-/

set_option autoImplicit false

namespace MyTestFiles.Netlink

open MyTestFiles.Lib

/-- The type of a message about an interface. -/
def RTM_NEWLINK : Nat := 16

/-- The type of the attribute with the name. -/
def IFLA_IFNAME : Nat := 3

/-- `NLM_F_ROOT|NLM_F_MATCH|NLM_F_REQUEST` -/
def dumpFlags : Nat := 0x100 ||| 0x200 ||| 0x1

/-! ### Requests -/

/-- The request of `rtnl_dump_request`, with its data, and that of `rtnl_wilddump_request`. -/
def dumpRequest (rth : RtnlHandle) (type : Nat) (req : Bytes) : RtnlHandle × Bytes :=
  let seq := uint32 (rth.seq + 1)
  ({ rth with seq := seq, dump := seq },
    toLE 4 (nlmsgLength req.length) ++ toLE 2 type ++ toLE 2 dumpFlags ++ toLE 4 seq ++ toLE 4 0 ++
      req)

/-- `rtnl_dump_request`: the handle and the bytes that are sent. -/
def rtnlDumpRequest (rth : RtnlHandle) (type : Nat) (req : Bytes) : RtnlHandle × Bytes :=
  dumpRequest rth type req

/-- `rtnl_wilddump_request`, whose data is a `struct rtgenmsg` padded to four bytes. -/
def rtnlWilddumpRequest (rth : RtnlHandle) (family : UInt8) (type : Nat) : RtnlHandle × Bytes :=
  dumpRequest rth type [family, 0, 0, 0]

/-! ### The records -/

/-- `struct idxmap`, without the hardware address, which nothing reads. -/
structure Idxmap where
  index : Nat
  type : Nat
  flags : Nat
  name : Bytes
  deriving DecidableEq

/-- `static struct idxmap *idxmap[16]` -/
abbrev Table := Fin 16 → List Idxmap

/-- Nothing is remembered. -/
def Table.empty : Table := fun _ => []

/-- `idx & 0xF` -/
def bucket (idx : Nat) : Fin 16 := Fin.ofNat 16 idx

/-- `for (im = idxmap[idx & 0xF]; im; im = im->next) if (im->index == idx) ..` -/
def Table.lookup (t : Table) (idx : Nat) : Option Idxmap :=
  (t (bucket idx)).find? fun im => im.index = idx

/-- The record of an interface, over the one that is there or behind the others. -/
def Table.remember (t : Table) (im : Idxmap) : Table :=
  Function.update t (bucket im.index) (put Idxmap.index im (t (bucket im.index)))

/-! ### `ll_remember_index` -/

/-- The C string at `p`. -/
def cString (buf : Bytes) (p : Nat) : Option Bytes :=
  if 0 ∈ buf.drop p then some ((buf.drop p).takeWhile (· ≠ 0)) else none

/-- `strcpy` to an array of 16 bytes. -/
def strcpy16 (buf : Bytes) (p : Nat) : Option Bytes := do
  let s ← cString buf p
  if s.length < 16 then some s else none

/-- `ifi->ifi_type`, where `ifi` is the data of the message. -/
def ifiType (n : Bytes) : Option Nat := loadLE 2 n (nlmsgHdrlen + 2)

/-- `ifi->ifi_index`, as an `unsigned` -/
def ifiIndex (n : Bytes) : Option Nat := loadLE 4 n (nlmsgHdrlen + 4)

/-- `ifi->ifi_flags` -/
def ifiFlags (n : Bytes) : Option Nat := loadLE 4 n (nlmsgHdrlen + 8)

/-- `IFLA_RTA(ifi)`, behind a `struct ifinfomsg` of 16 bytes. -/
def iflaRta : Nat := nlmsgHdrlen + 16

/-- `ll_remember_index`, with what it returns and what it prints. Where `malloc` has no room, a
new interface is not remembered. The check of the length is against the size of a pointer. -/
def llRememberIndex (iflaMax : Nat) (malloc : Bool) (n : Bytes) (t : Table) :
    Option (Table × Int × Option String) := do
  let type ← nlmsgType n 0
  if type ≠ RTM_NEWLINK then some (t, 0, none)
  else do
    let len ← nlmsgLen n 0
    if len < nlmsgLength 8 then some (t, -1, none)
    else do
      let (tb, text) ← parseRtattr n iflaMax iflaRta (len - iflaRta)
      match ← tb[IFLA_IFNAME]? with
      | none => some (t, 0, text)
      | some rta => do
          let index ← ifiIndex n
          if (t.lookup index).isNone ∧ malloc = false then some (t, 0, text)
          else do
            let ifi ← ifiType n
            let flags ← ifiFlags n
            let name ← strcpy16 n (rta + rtaLength 0)
            some (t.remember ⟨index, ifi, flags, name⟩, 0, text)

/-! ### Lookups -/

/-- The bytes of a text. -/
def ascii (s : String) : Bytes := s.toList.map fun c => UInt8.ofNat c.toNat

/-- `ll_idx_n2a`, and `ll_index_to_name`. The text of an index fits its 16 bytes. -/
def llIdxN2a (t : Table) (idx : Nat) : Bytes :=
  if idx = 0 then ascii "*"
  else match t.lookup idx with
    | some im => im.name
    | none => ascii s!"if{int32 idx}"

/-- `ll_index_to_type` -/
def llIndexToType (t : Table) (idx : Nat) : Int :=
  if idx = 0 then -1
  else match t.lookup idx with
    | some im => im.type
    | none => -1

/-- `ll_index_to_flags` -/
def llIndexToFlags (t : Table) (idx : Nat) : Nat :=
  if idx = 0 then 0
  else match t.lookup idx with
    | some im => im.flags
    | none => 0

/-- `static char ncache[16]; static int icache;`, with `icache` as the `unsigned` returned. -/
structure NameCache where
  ncache : Bytes
  icache : Nat

/-- The static variables before the first call. -/
def NameCache.initial : NameCache := ⟨[], 0⟩

/-- `for (i=0; i<16; i++) for (im = idxmap[i]; im; im = im->next) if (!strcmp(..)) ..` -/
def Table.findName (t : Table) (name : Bytes) : Option Idxmap :=
  ((List.finRange 16).flatMap t).find? fun im => im.name = name

/-- `ll_name_to_index`, where `name` may be a null pointer. -/
def llNameToIndex (ifNametoindex : Bytes → Nat) (t : Table) (name : Option Bytes) (c : NameCache) :
    NameCache × Nat :=
  match name with
  | none => (c, 0)
  | some name =>
      if c.icache ≠ 0 ∧ name = c.ncache then (c, c.icache)
      else match t.findName name with
        | some im => (⟨name, im.index⟩, im.index)
        | none => (c, ifNametoindex name)

/-- A call that may change the static variables. -/
inductive LlOp where
  | rememberIndex (malloc : Bool) (n : Bytes)
  | nameToIndex (name : Option Bytes)

/-- The call, and what `ll_name_to_index` answers. -/
def llStep (iflaMax : Nat) (ifNametoindex : Bytes → Nat) :
    Table × NameCache → LlOp → Option ((Table × NameCache) × Option Nat)
  | (t, c), .rememberIndex malloc n => do
      let (t, _) ← llRememberIndex iflaMax malloc n t
      some ((t, c), none)
  | (t, c), .nameToIndex name =>
      let (c, idx) := llNameToIndex ifNametoindex t name c
      some ((t, c), some idx)

/-! ### `ll_init_map` -/

/-- `ll_remember_index` as a callback, with the table and the number of its calls so far. `malloc`
says whether there is memory in each call. It faults for good, and what it prints is left out. -/
def llFilter (iflaMax : Nat) (malloc : Nat → Bool) : RtnlFilter (Option (Table × Nat)) :=
  fun _ n s =>
    match s with
    | none => (none, -1)
    | some (t, calls) =>
        match llRememberIndex iflaMax (malloc calls) n t with
        | none => (none, -1)
        | some (t, err, _) => (some (t, calls + 1), err)

/-- `ll_init_map`, where the kernel takes the request or not. -/
def llInitMap (iflaMax : Nat) (malloc : Nat → Bool) (rth : RtnlHandle) (sent : Bool)
    (calls : List Received) (t : Table) : Option (Option Table × Outcome) := do
  let (rth, _) := rtnlWilddumpRequest rth 0 18
  if sent = false then some (some t, .exited "Cannot send dump request")
  else do
    let (s, outcome, _) ← rtnlDumpFilter rth (llFilter iflaMax malloc) none (some (t, 0)) calls
    some (s.map Prod.fst, match outcome with
      | .returned err => if err < 0 then .exited "Dump terminated\n" else .returned 0
      | .error _ | .answers _ => .exited "Dump terminated\n"
      | outcome => outcome)

end MyTestFiles.Netlink
