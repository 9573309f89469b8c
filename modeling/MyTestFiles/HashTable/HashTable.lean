import MyTestFiles.Lib.Chain
import MyTestFiles.Lib.CInt
import MyTestFiles.Lib.Run

/-!
# `MyTestFiles.HashTable.HashTable`: the chained hash table of `hash.c`

A pointer is a word of `w` bits. The heap gives the entry at an address that `malloc` has
returned, until it is freed. A key argument is the memory from the pointer on, of which the
first `key_len` bytes are the key, or the bytes before the first NUL where `key_len` is 0.
A read outside that memory, of a block that is not allocated, or a shift that C leaves
undefined is a fault (`none`). What `malloc` returns is an argument of the operation.

* A bucket is a chain of entries, with the newest first. An entry keeps the key that it was added
  with, by its pointer.
* `hash` gets the number of buckets as an `int` and divides by it. A number that is 0 as an `int`
  is a fault.
* `add_hash_entry` puts a new entry in front and does not look for another one with its key, so a
  key is a stack of entries. A lookup and a removal find the newest.
-/

set_option autoImplicit false

namespace MyTestFiles.HashTable

open MyTestFiles.Lib

/-- A pointer. -/
abbrev Ptr (w : Nat) := BitVec w

/-- `NULL` -/
def null {w : Nat} : Ptr w := 0

/-- `uint8_t *key`: the bytes from there on. -/
abbrev Bytes := List UInt8

/-- `struct internal_entry` -/
structure InternalEntry (w : Nat) where
  link : Ptr w
  key : Bytes
  keyLen : Int
  data : Ptr w
  deriving DecidableEq

/-- `struct hsearch_data`, with the heap of its entries. `htable` is `none` for `NULL`. -/
structure HsearchData (w : Nat) where
  htable : Option (List (Ptr w))
  htablesize : Nat
  heap : Ptr w → Option (InternalEntry w)

/-! ### The hash of a key -/

/-- `while (accum > 255) accum = (accum & 255) + (accum >> 8);`. Each pass makes `accum`
smaller. -/
def addCarry : Nat → Nat → Nat
  | 0, accum => accum
  | fuel + 1, accum =>
      if accum > 255 then addCarry fuel ((accum &&& 255) + (accum >>> 8)) else accum

/-- `while (i--) { .. }` of `hash`, over the bytes from `s` on. -/
def hashBytes : Nat → Bytes → Nat → Option Nat
  | 0, _, accum => some accum
  | _ + 1, [], _ => none
  | i + 1, c :: s, accum =>
      let accum := accum + c.toNat
      hashBytes i s (addCarry accum accum)

/-- `hash`: the ISC hash function. -/
def hash (key : Bytes) (keyLen htblSize : Int) : Option Nat :=
  if keyLen < 0 ∨ htblSize = 0 then none
  else do
    let accum ← hashBytes keyLen.toNat key 0
    some (uint32 ((accum : Int).tmod htblSize))

/-- `strlen`. Without a NUL the read leaves the memory. -/
def strlen : Bytes → Option Nat
  | [] => none
  | c :: s => if c = 0 then some 0 else (strlen s).map (· + 1)

/-- `memcmp(s1, s2, n) == 0` -/
def memcmpEq (s1 s2 : Bytes) (n : Int) : Option Bool :=
  if n < 0 ∨ n > s1.length ∨ n > s2.length then none
  else some (s1.take n.toNat = s2.take n.toNat)

/-- `if (!key_len) { key_len = strlen(key); }` -/
def keyLength (key : Bytes) (keyLen : Int) : Option Int :=
  if keyLen = 0 then (strlen key).map fun (n : Nat) => int32 n else some keyLen

section HashTable
variable {w : Nat}

/-! ### The table -/

/-- The least number of buckets. -/
def minBuckets : Nat := 1 <<< 4

/-- The greatest number of buckets. -/
def maxBuckets (w : Nat) : Nat := 1 <<< (w - 1 - 5)

/-- `for (p2 = 0; nel != 0; p2++) nel >>= 1;` -/
def shiftCount : Nat → Nat → Nat
  | 0, _ => 0
  | fuel + 1, nel => if nel ≠ 0 then shiftCount fuel (nel >>> 1) + 1 else 0

/-- The number of buckets for `nel`. `1 << p2` is a shift of an `int`. -/
def bucketCount (w nel : Nat) : Option Nat :=
  let nel := if nel < minBuckets then minBuckets else nel
  let nel := if nel > maxBuckets w then maxBuckets w else nel
  if nel &&& (nel - 1) ≠ 0 then
    let p2 := shiftCount nel nel
    if p2 < 31 then some (1 <<< p2) else none
  else some nel

/-- `new_hash_table`, where `malloc` finds the memory or not. -/
def newHashTable (nel : Nat) (htab : HsearchData w) (malloc : Bool) :
    Option (HsearchData w × Nat) :=
  if htab.htable.isSome then some (htab, 0)
  else do
    let nel ← bucketCount w nel
    let htab := { htab with htablesize := nel }
    if !malloc then some (htab, 0)
    else some ({ htab with htable := some (List.replicate nel null) }, 1)

/-- The index of `&(htab->htable[hashval & (htab->htablesize - 1)])`. -/
def bucket (htab : HsearchData w) (key : Bytes) (keyLen : Int) : Option Nat := do
  let hashval ← hash key keyLen (int32 htab.htablesize)
  some (hashval &&& (htab.htablesize - 1))

/-- `SLIST_FIRST(head)` -/
def slistFirst (htab : HsearchData w) (head : Nat) : Option (Ptr w) := do
  let heads ← htab.htable
  heads[head]?

/-- `SLIST_FIRST(head) = ie` -/
def setSlistFirst (htab : HsearchData w) (head : Nat) (ie : Ptr w) : Option (HsearchData w) := do
  let heads ← htab.htable
  if head < heads.length then some { htab with htable := some (heads.set head ie) } else none

/-- `SLIST_NEXT(ie, link)` -/
def slistNext (htab : HsearchData w) (ie : Ptr w) : Option (Ptr w) :=
  (htab.heap ie).map (·.link)

/-- `SLIST_NEXT(ie, link) = next` -/
def setSlistNext (htab : HsearchData w) (ie next : Ptr w) : Option (HsearchData w) := do
  let entry ← htab.heap ie
  some { htab with heap := Function.update htab.heap ie (some { entry with link := next }) }

/-- `free(ie)` -/
def free (htab : HsearchData w) (ie : Ptr w) : HsearchData w :=
  { htab with heap := Function.update htab.heap ie none }

/-- `add_hash_entry`, where `malloc` returns `ie`, which is not in use. -/
def addHashEntry (htab : HsearchData w) (key : Bytes) (keyLen : Int) (data ie : Ptr w) :
    Option (HsearchData w × Nat) := do
  let keyLen ← keyLength key keyLen
  let head ← bucket htab key keyLen
  if ie = null then some (htab, 0)
  else if (htab.heap ie).isSome then none
  else
    -- SLIST_INSERT_HEAD
    let first ← slistFirst htab head
    let entry := { link := first, key := key, keyLen := keyLen, data := data }
    let htab := { htab with heap := Function.update htab.heap ie (some entry) }
    let htab ← setSlistFirst htab head ie
    some (htab, 1)

/-- `key_len == ie->key_len && (memcmp(ie->key, key, key_len) == 0)` -/
def entryMatches (htab : HsearchData w) (key : Bytes) (keyLen : Int) (ie : Ptr w) :
    Option Bool := do
  let entry ← htab.heap ie
  if keyLen = entry.keyLen then memcmpEq entry.key key keyLen else some false

/-- The loop of `delete_hash_entry` and `hash_lookup` from `ie` on: the entry that matches,
or `NULL`, after the entry before it, which only `delete_hash_entry` keeps. A list is no
longer than there are addresses. -/
def searchEntry (htab : HsearchData w) (key : Bytes) (keyLen : Int) (ie : Ptr w) :
    Option (Ptr w × Ptr w) :=
  loop (searchPass null (slistNext htab) (entryMatches htab key keyLen)) (2 ^ w + 1) (null, ie)

/-- `delete_hash_entry` -/
def deleteHashEntry (htab : HsearchData w) (key : Bytes) (keyLen : Int) :
    Option (HsearchData w) := do
  let keyLen ← keyLength key keyLen
  let head ← bucket htab key keyLen
  let first ← slistFirst htab head
  let (prevIe, ie) ← searchEntry htab key keyLen first
  if ie = null then some htab
  else
    let next ← slistNext htab ie
    let htab ← if prevIe ≠ null then setSlistNext htab prevIe next else setSlistFirst htab head next
    some (free htab ie)

/-- `hash_lookup` -/
def hashLookup (htab : HsearchData w) (key : Bytes) (keyLen : Int) : Option (Ptr w) := do
  let keyLen ← keyLength key keyLen
  let head ← bucket htab key keyLen
  let first ← slistFirst htab head
  let (_, ie) ← searchEntry htab key keyLen first
  if ie = null then some null
  else (htab.heap ie).map (·.data)

/-! ### The operations as steps of a machine -/

/-- A call of one of the operations. -/
inductive Op (w : Nat) where
  | add (key : Bytes) (keyLen : Int) (data ie : Ptr w)
  | delete (key : Bytes) (keyLen : Int)
  | lookup (key : Bytes) (keyLen : Int)
  deriving DecidableEq

/-- What an operation returns. -/
inductive Returned (w : Nat) where
  | code (ret : Nat)
  | void
  | data (p : Ptr w)
  deriving DecidableEq

/-- The call on the table. -/
def step (htab : HsearchData w) : Op w → Option (HsearchData w × Returned w)
  | .add key keyLen data ie => do
      let (htab, ret) ← addHashEntry htab key keyLen data ie
      some (htab, .code ret)
  | .delete key keyLen => do
      let htab ← deleteHashEntry htab key keyLen
      some (htab, .void)
  | .lookup key keyLen => do
      let p ← hashLookup htab key keyLen
      some (htab, .data p)

end HashTable

end MyTestFiles.HashTable
