import MyTestFiles.HashTable.HashTable

/-!
# `MyTestFiles.Proofs.HashTable.Refinement`: the hash table is a stack for each key

`keyOf` is the key that an argument names. A table `Holds` its chains when the list of each
bucket is a chain of well-formed entries whose keys hash to the bucket. `stackOf` reads the
data of one key off a chain, newest first. The three operations have specifications over
these (`addHashEntry_spec`, `deleteHashEntry_spec`, `hashLookup_spec`), and `refines` is
the result for whole runs.

* The abstract state is a function from keys to lists of data. Adding pushes, deleting pops, and a
  lookup reads the top, so an entry that is added twice hides the older one until it is deleted.
* A key is the bytes of an argument up to the length that is given, or up to its zero byte where
  the length is zero. Two arguments with one key are one key to the table, whatever the memory
  behind them holds.
* Entries whose keys hash to one bucket share a chain. `stackOf` picks the entries of one key out
  of it, so collisions never reach the statement of the results.

Equal keys are compared as the source compares them, by their length and their bytes, so a key
with a NUL inside is another key than the part before it when both are given with a length.
-/

set_option autoImplicit false

namespace MyTestFiles.Proofs.HashTable

open MyTestFiles.Lib
open MyTestFiles.HashTable

/-! ### Keys -/

section Keys
variable {key k : Bytes} {keyLen : Int}

/-- The key that an argument names: its first `keyLen` bytes, or a C string. -/
def keyOf (key : Bytes) (keyLen : Int) : Option Bytes :=
  if keyLen = 0 then if 0 ∈ key then some (key.takeWhile (· ≠ 0)) else none
  else if 0 ≤ keyLen ∧ keyLen ≤ key.length then some (key.take keyLen.toNat) else none

/-- The length of a string is the number of bytes before its zero. -/
theorem strlen_eq (h : 0 ∈ key) : strlen key = some (key.takeWhile (· ≠ 0)).length := by
  induction key with
  | nil => simp at h
  | cons c s ih =>
      by_cases hc : c = 0
      · simp [strlen, hc]
      · have hs : 0 ∈ s := by simpa [Ne.symm hc] using h
        simp [strlen, hc, ih hs]

/-- The key of an argument stands at the front of its bytes. -/
theorem take_of_keyOf (h : keyOf key keyLen = some k) : key.take k.length = k := by
  simp only [keyOf] at h
  split at h
  · split at h
    · cases h
      exact (List.prefix_iff_eq_take.mp (List.takeWhile_prefix _)).symm
    · cases h
  · split at h
    · cases h
      exact (List.prefix_iff_eq_take.mp (List.take_prefix _ _)).symm
    · cases h

/-- The code finds the length of the key. -/
theorem keyLength_of_keyOf (h : keyOf key keyLen = some k) (hk : k.length < 2 ^ 31) :
    keyLength key keyLen = some (k.length : Int) := by
  simp only [keyOf] at h
  split at h
  next hzero =>
    split at h
    next hmem =>
      cases h
      simp only [keyLength, if_pos hzero, strlen_eq hmem, Option.map_some]
      rw [int32_of_range (by omega) (by omega)]
    next => cases h
  next hzero =>
    split at h
    next hlen =>
      cases h
      simp only [keyLength, if_neg hzero, List.length_take]
      congr 1
      omega
    next => cases h

/-! ### Hashes -/

/-- What the bytes of a key add up to. -/
def accumOf (k : Bytes) (accum : Nat) : Nat :=
  k.foldl (fun accum c => addCarry (accum + c.toNat) (accum + c.toNat)) accum

/-- The loop of the hash is a fold over the bytes that it reads. -/
theorem hashBytes_eq (n : Nat) (key : Bytes) (accum : Nat) (h : n ≤ key.length) :
    hashBytes n key accum = some (accumOf (key.take n) accum) := by
  induction n generalizing key accum with
  | zero => simp [hashBytes, accumOf]
  | succ n ih =>
      cases key with
      | nil => simp at h
      | cons c s => simpa [hashBytes, accumOf] using ih s _ (by simpa using h)

/-- A pass of the carry loop leaves less: `addCarry` ends below 256, and the sum of a byte
stays an `int`. -/
theorem addCarry_le (fuel accum : Nat) (h : accum ≤ fuel) : addCarry fuel accum ≤ 255 := by
  induction fuel generalizing accum with
  | zero =>
      show accum ≤ 255
      omega
  | succ fuel ih =>
      simp only [addCarry]
      split
      next hbig =>
        refine ih _ ?_
        have hand : accum &&& 255 = accum % 256 := Nat.and_two_pow_sub_one_eq_mod accum 8
        have hshift : accum >>> 8 = accum / 256 := Nat.shiftRight_eq_div_pow accum 8
        omega
      next hsmall => omega

/-- The bucket of a key. -/
def bucketOf (size : Nat) (k : Bytes) : Nat :=
  uint32 ((accumOf k 0 : Int).tmod size) &&& (size - 1)

/-- A key hashes to a bucket that is there. -/
theorem bucketOf_lt {size : Nat} (hsize : 0 < size) (k : Bytes) : bucketOf size k < size := by
  have hle : bucketOf size k ≤ size - 1 := Nat.and_le_right
  omega

/-- The bucket that the code computes is that of the key. The size stays below `2 ^ 31`, so the
remainder of an `int` is the same. -/
theorem bucket_eq {w : Nat} {htab : HsearchData w} (hsize : 0 < htab.htablesize)
    (hmax : htab.htablesize < 2 ^ 31) (htake : key.take k.length = k) :
    bucket htab key k.length = some (bucketOf htab.htablesize k) := by
  have hle : k.length ≤ key.length := by
    have := congrArg List.length htake
    simp at this
    omega
  have hint : int32 htab.htablesize = htab.htablesize := int32_of_range (by omega) (by omega)
  have hnonneg : ¬ ((k.length : Int) < 0 ∨ (htab.htablesize : Int) = 0) := by omega
  simp only [bucket, HashTable.hash, hint, if_neg hnonneg, Int.toNat_natCast,
    hashBytes_eq _ _ _ hle, htake]
  rfl

end Keys

/-! ### Tables -/

section Table
variable {w : Nat} {htab : HsearchData w} {chains : Nat → List (Ptr w)} {key k : Bytes}
  {keyLen : Int} {heap heap' : Ptr w → Option (InternalEntry w)} {l : List (Ptr w)} {p : Ptr w}

/-- The key of an entry. -/
def entryKey (e : InternalEntry w) : Bytes := e.key.take e.keyLen.toNat

/-- An entry has as many bytes as its length says. -/
def WellFormed (e : InternalEntry w) : Prop := 0 ≤ e.keyLen ∧ e.keyLen ≤ e.key.length

/-- The key and the data of the entry at an address. -/
def keyed (heap : Ptr w → Option (InternalEntry w)) (p : Ptr w) : Option (Bytes × Ptr w) :=
  (heap p).map fun e => (entryKey e, e.data)

/-- The data of the entries with one key, in the order of the chain. -/
def stackOf (heap : Ptr w → Option (InternalEntry w)) (l : List (Ptr w)) (k : Bytes) :
    List (Ptr w) :=
  ((l.filterMap (keyed heap)).filter (·.1 = k)).map (·.2)

/-- A stack is read from its own entries only. -/
theorem stackOf_congr (h : ∀ p ∈ l, keyed heap' p = keyed heap p) :
    stackOf heap' l k = stackOf heap l k := by
  rw [stackOf, stackOf, List.filterMap_congr h]

/-- The stack of two chains, one behind the other. -/
theorem stackOf_append (l₁ l₂ : List (Ptr w)) :
    stackOf heap (l₁ ++ l₂) k = stackOf heap l₁ k ++ stackOf heap l₂ k := by
  simp [stackOf]

/-- An entry in front of a chain is on top of the stack of its own key. -/
theorem stackOf_cons (e : InternalEntry w) (hp : heap p = some e) :
    stackOf heap (p :: l) k =
      if entryKey e = k then e.data :: stackOf heap l k else stackOf heap l k := by
  by_cases hk : entryKey e = k <;> simp [stackOf, keyed, hp, hk]

/-- Without an entry for the key there is nothing on its stack. -/
theorem stackOf_eq_nil (h : ∀ p ∈ l, ∀ e, heap p = some e → entryKey e ≠ k) :
    stackOf heap l k = [] := by
  simp only [stackOf, List.map_eq_nil_iff, List.filter_eq_nil_iff, List.mem_filterMap]
  rintro ⟨k', d⟩ ⟨p, hp, hkeyed⟩
  simp only [keyed, Option.map_eq_some_iff] at hkeyed
  obtain ⟨e, he, heq⟩ := hkeyed
  cases heq
  simpa using h p hp e he

/-- The table's lists are the chains, and each entry is in the bucket of its key. -/
structure Holds (htab : HsearchData w) (chains : Nat → List (Ptr w)) : Prop where
  pos : 0 < htab.htablesize
  small : htab.htablesize < 2 ^ 31
  table : ∃ heads, htab.htable = some heads ∧ heads.length = htab.htablesize
  chain : ∀ b < htab.htablesize,
    ∃ a, slistFirst htab b = some a ∧ Chain null (slistNext htab) a (chains b)
  entry : ∀ b < htab.htablesize, ∀ p ∈ chains b,
    ∃ e, htab.heap p = some e ∧ WellFormed e ∧ bucketOf htab.htablesize (entryKey e) = b

/-- The stack of every key is what the chain of its bucket holds. -/
def Stacked (htab : HsearchData w) (chains : Nat → List (Ptr w)) (stack : Bytes → List (Ptr w)) :
    Prop :=
  ∀ k, stack k = stackOf htab.heap (chains (bucketOf htab.htablesize k)) k

/-- An entry is in the chain of one bucket only. -/
theorem Holds.not_mem (h : Holds htab chains) {b c : Nat} (hb : b < htab.htablesize)
    (hc : c < htab.htablesize) (hne : c ≠ b) (hp : p ∈ chains c) : p ∉ chains b := by
  intro hpb
  obtain ⟨e, he, -, hbucket⟩ := h.entry b hb p hpb
  obtain ⟨e', he', -, hbucket'⟩ := h.entry c hc p hp
  rw [he] at he'
  cases he'
  exact hne (hbucket'.symm.trans hbucket)

/-- A new chain for one bucket, where the entries of the others stay. -/
theorem Holds.replace (h : Holds htab chains) {htab' : HsearchData w} {b : Nat}
    (hsize : htab'.htablesize = htab.htablesize)
    (htable : ∃ heads, htab'.htable = some heads ∧ heads.length = htab.htablesize)
    (hfirst : ∀ c, c ≠ b → slistFirst htab' c = slistFirst htab c)
    (hheap : ∀ c < htab.htablesize, c ≠ b → ∀ p ∈ chains c, htab'.heap p = htab.heap p)
    (hchain : ∃ a, slistFirst htab' b = some a ∧ Chain null (slistNext htab') a l)
    (hentry : ∀ p ∈ l, ∃ e, htab'.heap p = some e ∧ WellFormed e ∧
      bucketOf htab.htablesize (entryKey e) = b) : Holds htab' (Function.update chains b l) where
  pos := hsize ▸ h.pos
  small := hsize ▸ h.small
  table := by rwa [hsize]
  chain c hc := by
    rw [hsize] at hc
    -- the bucket of the new chain, or one of the others
    by_cases hcb : c = b
    · subst hcb
      simpa using hchain
    · obtain ⟨a, ha, hac⟩ := h.chain c hc
      rw [Function.update_of_ne hcb, hfirst c hcb]
      refine ⟨a, ha, hac.congr fun p hp => ?_⟩
      simp [slistNext, hheap c hc hcb p hp]
  entry c hc p hp := by
    rw [hsize] at hc ⊢
    by_cases hcb : c = b
    · subst hcb
      exact hentry p (by simpa using hp)
    · rw [Function.update_of_ne hcb] at hp
      rw [hheap c hc hcb p hp]
      exact h.entry c hc p hp

/-- A step that changes one bucket changes the stacks of the keys in it only. -/
theorem Stacked.replace {stack stack' : Bytes → List (Ptr w)} (h : Stacked htab chains stack)
    (hpos : 0 < htab.htablesize) {htab' : HsearchData w} {b : Nat}
    (hsize : htab'.htablesize = htab.htablesize)
    (hheap : ∀ c < htab.htablesize, c ≠ b → ∀ p ∈ chains c, htab'.heap p = htab.heap p)
    (hsame : ∀ k, bucketOf htab.htablesize k = b → stack' k = stackOf htab'.heap l k)
    (hother : ∀ k, bucketOf htab.htablesize k ≠ b → stack' k = stack k) :
    Stacked htab' (Function.update chains b l) stack' := by
  intro k
  rw [hsize]
  by_cases hk : bucketOf htab.htablesize k = b
  · rw [hsame k hk, hk, Function.update_self]
  · rw [hother k hk, h k, Function.update_of_ne hk]
    refine (stackOf_congr fun p hp => ?_).symm
    simp [keyed, hheap _ (bucketOf_lt hpos k) hk p hp]

/-- A chain is no longer than there are addresses. -/
theorem length_le_of_chain {next : Ptr w → Option (Ptr w)} {a : Ptr w} (h : Chain null next a l) :
    l.length ≤ 2 ^ w := by
  have hle := h.nodup.length_le_card
  rwa [← FinEnum.card_eq_fintypeCard, FinEnum.card_bitVec] at hle

/-- The comparison of a search compares keys, with their lengths first. -/
theorem entryMatches_eq {e : InternalEntry w} (he : htab.heap p = some e) (hwf : WellFormed e)
    (htake : key.take k.length = k) :
    entryMatches htab key k.length p = some (decide (entryKey e = k)) := by
  have hlen : k.length ≤ key.length := by
    have := congrArg List.length htake
    simp at this
    omega
  obtain ⟨hnonneg, hle⟩ := hwf
  simp only [entryMatches, he]
  by_cases hkeyLen : (k.length : Int) = e.keyLen
  · have hbounds : ¬ ((k.length : Int) < 0 ∨ (k.length : Int) > e.key.length ∨
        (k.length : Int) > key.length) := by omega
    simp [hkeyLen.symm, memcmpEq, entryKey, htake]
    omega
  · have hne : entryKey e ≠ k := by
      intro heq
      have := congrArg List.length heq
      simp only [entryKey, List.length_take] at this
      omega
    simp [hkeyLen, hne]

/-- Whether the entry at an address has the key. -/
def hasKey (htab : HsearchData w) (k : Bytes) (p : Ptr w) : Bool :=
  (htab.heap p).any fun e => entryKey e = k

/-- The search stops at the newest entry for the key, or at the end without one. -/
theorem searchEntry_spec (h : Holds htab chains) {b : Nat} (hb : b < htab.htablesize)
    {a : Ptr w} (hchain : Chain null (slistNext htab) a (chains b))
    (htake : key.take k.length = k) :
    ∃ prev q, searchEntry htab key k.length a = some (prev, q) ∧
      ((q = null ∧ stackOf htab.heap (chains b) k = []) ∨
        ∃ pre post e, chains b = pre ++ q :: post ∧ q ≠ null ∧ prev = pre.getLastD null ∧
          htab.heap q = some e ∧ entryKey e = k ∧ stackOf htab.heap pre k = []) := by
  -- on the entries of a chain the comparison does not fault
  have hfound : ∀ p ∈ chains b,
      entryMatches htab key k.length p = some (hasKey htab k p) := by
    intro p hp
    obtain ⟨e, he, hwf, -⟩ := h.entry b hb p hp
    rw [entryMatches_eq he hwf htake]
    simp [hasKey, he]
  -- entries for other keys are not on the stack of this one
  have hother : ∀ l : List (Ptr w), (∀ p ∈ l, hasKey htab k p = false) →
      stackOf htab.heap l k = [] := by
    intro l hl
    refine stackOf_eq_nil fun p hp e he => ?_
    simpa [hasKey, he] using hl p hp
  obtain ⟨prev, q, hrun, ⟨rfl, hnone⟩ | ⟨pre, post, heq, hpre, hq, hne, rfl⟩⟩ :=
    search_spec null hchain hfound (Nat.lt_succ_of_le (length_le_of_chain hchain))
  · exact ⟨prev, null, hrun, .inl ⟨rfl, hother _ hnone⟩⟩
  · obtain ⟨e, he, -⟩ := h.entry b hb q (by simp [heq])
    refine ⟨_, q, hrun, .inr ⟨pre, post, e, heq, hne, rfl, he, ?_, hother pre hpre⟩⟩
    simpa [hasKey, he] using hq

/-! ### The operations -/

variable {stack : Bytes → List (Ptr w)}

/-- A lookup answers the top of the stack of its key, or `NULL`. -/
theorem hashLookup_spec (h : Holds htab chains) (hstack : Stacked htab chains stack)
    (hkey : keyOf key keyLen = some k) (hk : k.length < 2 ^ 31) :
    hashLookup htab key keyLen = some ((stack k).headD null) := by
  have htake := take_of_keyOf hkey
  have hb := bucketOf_lt h.pos k
  obtain ⟨a, hfirst, hchain⟩ := h.chain _ hb
  obtain ⟨prev, q, hsearch, hq⟩ := searchEntry_spec h hb hchain htake
  have hlength := keyLength_of_keyOf hkey hk
  have hbucket := bucket_eq h.pos h.small htake
  have hrun : hashLookup htab key keyLen =
      if q = null then some null else (htab.heap q).map (·.data) := by
    simp only [hashLookup, Option.bind_eq_bind]
    rw [bind_of_some hlength, bind_of_some hbucket, bind_of_some hfirst, bind_of_some hsearch]
  rw [hrun, hstack k]
  rcases hq with ⟨rfl, hnone⟩ | ⟨pre, post, e, heq, hne, -, he, hk', hpre⟩
  · rw [hnone, if_pos rfl]
    rfl
  · rw [heq, stackOf_append, hpre, stackOf_cons e he, if_pos hk', if_neg hne, he]
    rfl

/-- What adding an entry leaves: `entry` at `ie`, in front of bucket `b`, and nothing else
touched. -/
structure Added (htab htab' : HsearchData w) (b : Nat) (ie : Ptr w) (entry : InternalEntry w) :
    Prop where
  size : htab'.htablesize = htab.htablesize
  table : ∃ heads, htab'.htable = some heads ∧ heads.length = htab.htablesize
  first : ∀ c, c ≠ b → slistFirst htab' c = slistFirst htab c
  head : slistFirst htab' b = some ie
  link : slistFirst htab b = some entry.link
  new : htab'.heap ie = some entry
  frame : ∀ p, p ≠ ie → htab'.heap p = htab.heap p

section Added
variable {htab' : HsearchData w} {b : Nat} {ie : Ptr w} {entry : InternalEntry w}

/-- The new block is in no chain. -/
theorem Holds.ne_of_fresh (h : Holds htab chains) (hfresh : htab.heap ie = none) {c : Nat}
    (hc : c < htab.htablesize) (hp : p ∈ chains c) : p ≠ ie := by
  intro heq
  obtain ⟨e, he, -⟩ := h.entry c hc p hp
  rw [heq, hfresh] at he
  cases he

/-- An entry that is put in front of a chain keeps the table well formed. -/
theorem Added.holds (h : Added htab htab' b ie entry) (hold : Holds htab chains)
    (hb : b < htab.htablesize) (hie : ie ≠ null) (hfresh : htab.heap ie = none)
    (hwf : WellFormed entry) (hbucket : bucketOf htab.htablesize (entryKey entry) = b) :
    Holds htab' (Function.update chains b (ie :: chains b)) := by
  have hheap : ∀ c < htab.htablesize, ∀ p ∈ chains c, htab'.heap p = htab.heap p :=
    fun c hc p hp => h.frame p (hold.ne_of_fresh hfresh hc hp)
  obtain ⟨a, hfirst, hchain⟩ := hold.chain b hb
  have ha : a = entry.link := Option.some.inj (hfirst.symm.trans h.link)
  refine hold.replace h.size h.table h.first (fun c hc _ => hheap c hc) ?_ ?_
  · have hnext : slistNext htab' ie = some a := by simp [slistNext, h.new, ha]
    have hrest : Chain null (slistNext htab') a (chains b) :=
      hchain.congr fun p hp => by simp [slistNext, hheap b hb p hp]
    exact ⟨ie, h.head, .cons hie hnext hrest⟩
  · intro p hp
    rcases List.mem_cons.mp hp with rfl | hp
    · exact ⟨entry, h.new, hwf, hbucket⟩
    · rw [hheap b hb p hp]
      exact hold.entry b hb p hp

/-- An entry that is put in front of a chain is pushed on the stack of its key. -/
theorem Added.stacked (h : Added htab htab' b ie entry) (hold : Holds htab chains)
    (hb : b < htab.htablesize) (hfresh : htab.heap ie = none) (hstack : Stacked htab chains stack)
    (hkey : entryKey entry = k) (hbucket : bucketOf htab.htablesize k = b) :
    Stacked htab' (Function.update chains b (ie :: chains b))
      (Function.update stack k (entry.data :: stack k)) := by
  have hheap : ∀ c < htab.htablesize, ∀ p ∈ chains c, htab'.heap p = htab.heap p :=
    fun c hc p hp => h.frame p (hold.ne_of_fresh hfresh hc hp)
  have hrest : ∀ k', stackOf htab'.heap (chains b) k' = stackOf htab.heap (chains b) k' :=
    fun k' => stackOf_congr fun p hp => by simp [keyed, hheap b hb p hp]
  refine hstack.replace hold.pos h.size (fun c hc _ => hheap c hc) ?_ ?_
  · intro k' hk'
    rw [stackOf_cons entry h.new, hkey, hrest k']
    by_cases heq : k = k'
    · subst heq
      rw [Function.update_self, if_pos rfl, hstack k, hk']
    · rw [Function.update_of_ne (Ne.symm heq), if_neg heq, hstack k', hk']
  · intro k' hk'
    refine Function.update_of_ne (fun heq => hk' ?_) _ _
    rw [heq, hbucket]

end Added

/-- The entry that `add_hash_entry` makes. -/
def newEntry (link : Ptr w) (key k : Bytes) (data : Ptr w) : InternalEntry w where
  link := link
  key := key
  keyLen := k.length
  data := data

/-- A new entry has the key that it was made for. -/
theorem newEntry_wellFormed {link data : Ptr w} (htake : key.take k.length = k) :
    WellFormed (newEntry link key k data) := by
  have hlen := congrArg List.length htake
  simp only [List.length_take] at hlen
  constructor
  · show (0 : Int) ≤ k.length
    omega
  · show (k.length : Int) ≤ key.length
    omega

/-- Adding an entry puts it in front of the chain of its bucket. -/
theorem addHashEntry_spec (h : Holds htab chains) (hstack : Stacked htab chains stack)
    (hkey : keyOf key keyLen = some k) (hk : k.length < 2 ^ 31) {data ie : Ptr w} (hie : ie ≠ null)
    (hfresh : htab.heap ie = none) :
    ∃ htab' chains', addHashEntry htab key keyLen data ie = some (htab', 1) ∧
      Holds htab' chains' ∧ Stacked htab' chains' (Function.update stack k (data :: stack k)) := by
  have htake := take_of_keyOf hkey
  have hb := bucketOf_lt h.pos k
  obtain ⟨a, hfirst, hchain⟩ := h.chain _ hb
  obtain ⟨heads, hheads, hlen⟩ := h.table
  generalize hbk : bucketOf htab.htablesize k = b at hb hchain hfirst
  let htab' : HsearchData w :=
    { htable := some (heads.set b ie), htablesize := htab.htablesize,
      heap := Function.update htab.heap ie (some (newEntry a key k data)) }
  -- the block that `malloc` returned, with its link to the old first entry
  have hset : setSlistFirst
      { htab with heap := Function.update htab.heap ie (some (newEntry a key k data)) } b ie
        = some htab' := by
    simp [setSlistFirst, hheads, hlen, hb, htab']
  have hrun : addHashEntry htab key keyLen data ie = some (htab', 1) := by
    simp only [addHashEntry, Option.bind_eq_bind]
    rw [bind_of_some (keyLength_of_keyOf hkey hk), bind_of_some (bucket_eq h.pos h.small htake),
      hbk, if_neg hie, hfresh, if_neg (by simp), bind_of_some hfirst]
    exact bind_of_some hset
  have hentry : entryKey (newEntry a key k data) = k := by simp [entryKey, newEntry, htake]
  have hadded : Added htab htab' b ie (newEntry a key k data) :=
    { size := rfl
      table := ⟨_, rfl, by simpa using hlen⟩
      first := by
        intro c hc
        simp [slistFirst, htab', hheads, List.getElem?_set_ne (Ne.symm hc)]
      head := by simp [slistFirst, htab', hlen, hb]
      link := hfirst
      new := Function.update_self _ _ _
      frame := fun p hp => Function.update_of_ne hp _ _ }
  exact ⟨htab', _, hrun,
    hadded.holds h hb hie hfresh (newEntry_wellFormed htake) (by rw [hentry, hbk]),
    hadded.stacked h hb hfresh hstack hentry hbk⟩

/-- What unlinking an entry leaves: the chain `l` in its bucket, with entries that have at
most new links, and nothing else touched. -/
structure Unlinked (htab htab' : HsearchData w) (chains : Nat → List (Ptr w)) (b : Nat)
    (l : List (Ptr w)) : Prop where
  size : htab'.htablesize = htab.htablesize
  table : ∃ heads, htab'.htable = some heads ∧ heads.length = htab.htablesize
  first : ∀ c, c ≠ b → slistFirst htab' c = slistFirst htab c
  chain : ∃ a, slistFirst htab' b = some a ∧ Chain null (slistNext htab') a l
  frame : ∀ p, p ∉ chains b → htab'.heap p = htab.heap p
  entry : ∀ p ∈ l, ∃ link, htab'.heap p = (htab.heap p).map fun e => { e with link := link }

/-- The entries that stay have the keys and data that they had. -/
theorem Unlinked.keyed_eq {htab' : HsearchData w} {b : Nat} (h : Unlinked htab htab' chains b l)
    (hp : p ∈ l) : keyed htab'.heap p = keyed htab.heap p := by
  obtain ⟨link, hlink⟩ := h.entry p hp
  rw [keyed, keyed, hlink, Option.map_map]
  rfl

/-- A chain with an entry taken out keeps the table well formed. -/
theorem Unlinked.holds {htab' : HsearchData w} {b : Nat} (h : Unlinked htab htab' chains b l)
    (hold : Holds htab chains) (hb : b < htab.htablesize) (hsub : ∀ p ∈ l, p ∈ chains b) :
    Holds htab' (Function.update chains b l) := by
  refine hold.replace h.size h.table h.first ?_ h.chain ?_
  · intro c hc hcb p hp
    exact h.frame p (hold.not_mem hb hc hcb hp)
  · intro p hp
    obtain ⟨e, he, hwf, hbucket⟩ := hold.entry b hb p (hsub p hp)
    obtain ⟨link, hlink⟩ := h.entry p hp
    exact ⟨{ e with link := link }, by rw [hlink, he]; rfl, hwf, hbucket⟩

/-- The head of the bucket skips its first entry. -/
theorem unlinked_first (h : Holds htab chains) {b : Nat} (hb : b < htab.htablesize) {q : Ptr w}
    {post : List (Ptr w)} (heq : chains b = q :: post) {e : InternalEntry w}
    (he : htab.heap q = some e) :
    ∃ htab', setSlistFirst htab b e.link = some htab' ∧
      Unlinked htab (free htab' q) chains b post := by
  obtain ⟨heads, hheads, hlen⟩ := h.table
  obtain ⟨a, hfirst, hchain⟩ := h.chain b hb
  rw [heq] at hchain
  have hnodup := hchain.nodup
  refine ⟨{ htab with htable := some (heads.set b e.link) }, ?_, ?_⟩
  · simp [setSlistFirst, hheads, hlen, hb]
  · have hheap : ∀ p, p ≠ q → Function.update htab.heap q none p = htab.heap p :=
      fun p hp => Function.update_of_ne hp _ _
    -- no address comes twice in a chain
    have hne : ∀ p ∈ post, p ≠ q := fun p hp hpq =>
      (List.nodup_cons.mp hnodup).1 (hpq ▸ hp)
    constructor
    case size => rfl
    case table => exact ⟨_, rfl, by simpa using hlen⟩
    case first =>
      intro c hc
      simp [slistFirst, free, hheads, List.getElem?_set_ne (Ne.symm hc)]
    case chain =>
      refine ⟨e.link, by simp [slistFirst, free, hlen, hb], ?_⟩
      cases hchain with
      | cons _ hnext hrest =>
          rw [slistNext, he] at hnext
          cases hnext
          refine hrest.congr fun p hp => ?_
          simp only [slistNext, free, hheap p (hne p hp)]
    case frame =>
      intro p hp
      exact hheap p fun hpq => hp (by simp [heq, hpq])
    case entry =>
      intro p hp
      cases hentry : htab.heap p with
      | none => exact ⟨null, by simp [free, hheap p (hne p hp), hentry]⟩
      | some e' => exact ⟨e'.link, by simp [free, hheap p (hne p hp), hentry]⟩

/-- The link of the entry before skips an entry. -/
theorem unlinked_after (h : Holds htab chains) {b : Nat} (hb : b < htab.htablesize) {q : Ptr w}
    {pre post : List (Ptr w)} (heq : chains b = pre ++ p :: q :: post) {e : InternalEntry w}
    (he : htab.heap q = some e) :
    ∃ htab', setSlistNext htab p e.link = some htab' ∧
      Unlinked htab (free htab' q) chains b (pre ++ p :: post) := by
  obtain ⟨a, hfirst, hchain⟩ := h.chain b hb
  obtain ⟨before, hbefore, -⟩ := h.entry b hb p (by simp [heq])
  rw [heq] at hchain
  have hnodup := hchain.nodup
  -- the two entries are distinct and not among the others
  have hperm : (pre ++ p :: q :: post).Perm (p :: q :: (pre ++ post)) :=
    List.perm_middle.trans (.cons p List.perm_middle)
  have hpq := List.nodup_cons.mp (hperm.nodup_iff.mp hnodup)
  have hqp : q ≠ p := fun hqp => hpq.1 (by simp [hqp])
  let heap := Function.update htab.heap p (some { before with link := e.link })
  have hold : ∀ x, x ≠ p → x ≠ q → Function.update heap q none x = htab.heap x := by
    intro x hxp hxq
    rw [Function.update_of_ne hxq]
    exact Function.update_of_ne hxp _ _
  have hnew : Function.update heap q none p = some { before with link := e.link } := by
    rw [Function.update_of_ne hqp.symm]
    exact Function.update_self _ _ _
  have hothers : ∀ x ∈ pre ++ post, x ≠ p ∧ x ≠ q := by
    intro x hx
    constructor
    · rintro rfl
      exact hpq.1 (List.mem_cons_of_mem q hx)
    · rintro rfl
      exact (List.nodup_cons.mp hpq.2).1 hx
  refine ⟨{ htab with heap := heap }, by simp [setSlistNext, hbefore, heap], ?_⟩
  constructor
  case size => rfl
  case table => exact h.table
  case first => exact fun c _ => rfl
  case chain =>
    refine ⟨a, hfirst, hchain.unlink (r := e.link) ?_ ?_ ?_⟩
    · simp [slistNext, he]
    · simp [slistNext, free, hnew]
    · intro x hx
      obtain ⟨hxp, hxq⟩ := hothers x hx
      simp only [slistNext, free, hold x hxp hxq]
  case frame =>
    intro x hx
    refine hold x (fun hxp => hx (by simp [heq, hxp])) (fun hxq => hx (by simp [heq, hxq]))
  case entry =>
    intro x hx
    by_cases hxp : x = p
    · subst hxp
      exact ⟨e.link, by simp [free, hnew, hbefore]⟩
    · have hxo : x ∈ pre ++ post := by
        simp only [List.mem_append, List.mem_cons] at hx ⊢
        rcases hx with hx | rfl | hx
        · exact .inl hx
        · exact absurd rfl hxp
        · exact .inr hx
      refine ⟨((htab.heap x).map (·.link)).getD null, ?_⟩
      simp only [free, hold x hxp (hothers x hxo).2]
      cases htab.heap x <;> rfl

/-- The entry before an entry, or the head of the bucket, skips it. -/
theorem exists_unlinked (h : Holds htab chains) {b : Nat} (hb : b < htab.htablesize) {q : Ptr w}
    {pre post : List (Ptr w)} (heq : chains b = pre ++ q :: post) {e : InternalEntry w}
    (he : htab.heap q = some e) :
    ∃ linked, (if pre.getLastD null ≠ null then setSlistNext htab (pre.getLastD null) e.link
        else setSlistFirst htab b e.link) = some linked ∧
      Unlinked htab (free linked q) chains b (pre ++ post) := by
  rcases List.eq_nil_or_concat pre with rfl | ⟨before, p, rfl⟩
  · rw [if_neg (by simp)]
    exact unlinked_first h hb heq he
  · obtain ⟨a, -, hchain⟩ := h.chain b hb
    have hlast : (before.concat p).getLastD null = p := by simp
    rw [List.concat_eq_append, List.append_assoc] at heq
    have hpne : p ≠ null := (heq ▸ hchain).ne_null (by simp)
    rw [hlast, if_pos hpne, List.concat_eq_append, List.append_assoc]
    exact unlinked_after h hb heq he

/-- The stack of the key of the first entry for it loses its top. -/
theorem Unlinked.stacked {htab' : HsearchData w} {b : Nat} {q : Ptr w} {pre post : List (Ptr w)}
    (h : Unlinked htab htab' chains b (pre ++ post)) (hold : Holds htab chains)
    (hb : b < htab.htablesize) (hstack : Stacked htab chains stack)
    (heq : chains b = pre ++ q :: post) {e : InternalEntry w} (he : htab.heap q = some e)
    (hek : entryKey e = k) (hpre : stackOf htab.heap pre k = [])
    (hbk : bucketOf htab.htablesize k = b) :
    Stacked htab' (Function.update chains b (pre ++ post))
      (Function.update stack k (stack k).tail) := by
  refine hstack.replace hold.pos h.size ?_ ?_ ?_
  · intro c hc hcb p hp
    exact h.frame p (hold.not_mem hb hc hcb hp)
  · intro k' hk'
    rw [stackOf_congr fun p hp => h.keyed_eq hp, stackOf_append]
    have hbefore : stack k' = stackOf htab.heap pre k' ++ stackOf htab.heap (q :: post) k' := by
      rw [hstack k', hk', heq, stackOf_append]
    rw [stackOf_cons e he, hek] at hbefore
    -- the entry was on top of the stack of its own key, and on no other one
    by_cases hkk : k = k'
    · subst hkk
      rw [Function.update_self, hbefore, hpre, if_pos rfl]
      rfl
    · rw [Function.update_of_ne (Ne.symm hkk), hbefore, if_neg hkk]
  · intro k' hk'
    refine Function.update_of_ne (fun heq' => hk' ?_) _ _
    rw [heq', hbk]

/-- Deleting takes the newest entry for the key out of its chain. -/
theorem deleteHashEntry_spec (h : Holds htab chains) (hstack : Stacked htab chains stack)
    (hkey : keyOf key keyLen = some k) (hk : k.length < 2 ^ 31) :
    ∃ htab' chains', deleteHashEntry htab key keyLen = some htab' ∧
      Holds htab' chains' ∧ Stacked htab' chains' (Function.update stack k (stack k).tail) := by
  have htake := take_of_keyOf hkey
  have hb := bucketOf_lt h.pos k
  obtain ⟨a, hfirst, hchain⟩ := h.chain _ hb
  obtain ⟨prev, q, hsearch, hq⟩ := searchEntry_spec h hb hchain htake
  have hlength := keyLength_of_keyOf hkey hk
  have hbucket := bucket_eq h.pos h.small htake
  generalize hbk : bucketOf htab.htablesize k = b at hb hchain hfirst hbucket hq
  rcases hq with ⟨rfl, hnone⟩ | ⟨pre, post, e, heq, hne, rfl, he, hek, hpre⟩
  · -- no entry for the key: nothing changes
    have hrun : deleteHashEntry htab key keyLen = some htab := by
      simp only [deleteHashEntry, Option.bind_eq_bind]
      rw [bind_of_some hlength, bind_of_some hbucket, bind_of_some hfirst, bind_of_some hsearch,
        if_pos rfl]
    have hempty : stack k = [] := by rw [hstack k, hbk, hnone]
    refine ⟨htab, chains, hrun, h, ?_⟩
    rw [hempty, List.tail_nil, ← hempty, Function.update_eq_self]
    exact hstack
  -- The entry that the search stops at is unlinked from its chain and freed.
  · have hnext : slistNext htab q = some e.link := by simp [slistNext, he]
    obtain ⟨linked, hlink, hunlinked⟩ := exists_unlinked h hb heq he
    have hrun : deleteHashEntry htab key keyLen = some (free linked q) := by
      simp only [deleteHashEntry, Option.bind_eq_bind]
      rw [bind_of_some hlength, bind_of_some hbucket, bind_of_some hfirst, bind_of_some hsearch,
        if_neg hne, bind_of_some hnext]
      split at hlink
      next hp => rw [if_pos hp, bind_of_some hlink]
      next hp => rw [if_neg hp, bind_of_some hlink]
    have hsub : ∀ p ∈ pre ++ post, p ∈ chains b := by
      intro p hp
      rw [heq]
      rcases List.mem_append.mp hp with hp | hp
      · exact List.mem_append_left _ hp
      · exact List.mem_append_right _ (List.mem_cons_of_mem q hp)
    exact ⟨free linked q, Function.update chains b (pre ++ post), hrun,
      hunlinked.holds h hb hsub, hunlinked.stacked h hb hstack heq he hek hpre hbk⟩

/-! ### Runs -/

/-- What the table is for: a stack of data for every key. -/
def stackStep (stack : Bytes → List (Ptr w)) : Op w → Option ((Bytes → List (Ptr w)) × Returned w)
  | .add key keyLen data _ =>
      (keyOf key keyLen).map fun k => (Function.update stack k (data :: stack k), .code 1)
  | .delete key keyLen =>
      (keyOf key keyLen).map fun k => (Function.update stack k (stack k).tail, .void)
  | .lookup key keyLen => (keyOf key keyLen).map fun k => (stack, .data ((stack k).headD null))

/-- The arguments name a key, whose length is an `int`. -/
def IsKey (key : Bytes) (keyLen : Int) : Prop :=
  ∃ k, keyOf key keyLen = some k ∧ k.length < 2 ^ 31

/-- The arguments of an operation name a key, and `malloc` succeeds: its block is not
`NULL` and not in use. -/
def Meets (htab : HsearchData w) : Op w → Prop
  | .add key keyLen _ ie => IsKey key keyLen ∧ ie ≠ null ∧ htab.heap ie = none
  | .delete key keyLen => IsKey key keyLen
  | .lookup key keyLen => IsKey key keyLen

/-- A table and the stacks that it stands for. -/
def Represents (htab : HsearchData w) (stack : Bytes → List (Ptr w)) : Prop :=
  ∃ chains, Holds htab chains ∧ Stacked htab chains stack

/-- One operation on a represented table does what it does to the stacks. -/
theorem step_spec (h : Represents htab stack) {op : Op w} (hmeets : Meets htab op) :
    ∃ htab' stack' returned, step htab op = some (htab', returned) ∧
      stackStep stack op = some (stack', returned) ∧ Represents htab' stack' := by
  obtain ⟨chains, hholds, hstack⟩ := h
  cases op with
  | add key keyLen data ie =>
      obtain ⟨⟨k, hkey, hk⟩, hie, hfresh⟩ := hmeets
      obtain ⟨htab', chains', hrun, hholds', hstack'⟩ :=
        addHashEntry_spec hholds hstack hkey hk hie hfresh
      exact ⟨htab', Function.update stack k (data :: stack k), .code 1, by simp [step, hrun],
        by simp [stackStep, hkey], chains', hholds', hstack'⟩
  | delete key keyLen =>
      obtain ⟨k, hkey, hk⟩ := hmeets
      obtain ⟨htab', chains', hrun, hholds', hstack'⟩ := deleteHashEntry_spec hholds hstack hkey hk
      exact ⟨htab', Function.update stack k (stack k).tail, .void, by simp [step, hrun],
        by simp [stackStep, hkey], chains', hholds', hstack'⟩
  | lookup key keyLen =>
      obtain ⟨k, hkey, hk⟩ := hmeets
      have hrun := hashLookup_spec hholds hstack hkey hk
      exact ⟨htab, stack, .data ((stack k).headD null), by simp [step, hrun],
        by simp [stackStep, hkey], chains, hholds, hstack⟩

/-- A new table holds nothing. -/
theorem represents_of_newHashTable {nel : Nat} {start : HsearchData w}
    (hnew : newHashTable nel start true = some (htab, 1)) (hpos : 0 < htab.htablesize)
    (hmax : htab.htablesize < 2 ^ 31) : Represents htab fun _ => [] := by
  simp only [newHashTable] at hnew
  split at hnew
  · simp at hnew
  · simp only [Bool.not_true, Bool.false_eq_true, if_false, Option.bind_eq_bind,
      Option.bind_eq_some_iff, Option.some.injEq, Prod.mk.injEq, and_true] at hnew
    obtain ⟨size, -, rfl⟩ := hnew
    refine ⟨fun _ => [], ⟨hpos, hmax, ⟨_, rfl, by simp⟩, ?_, by simp⟩, fun k => rfl⟩
    intro b hb
    refine ⟨null, ?_, .nil⟩
    simpa [slistFirst, List.getElem?_replicate] using hb

/-- Every run on a new table returns what the stacks of the keys do, and afterwards every
lookup finds the top of the stack of its key. -/
theorem refines {nel : Nat} {start : HsearchData w} {ops : List (Op w)}
    (hnew : newHashTable nel start true = some (htab, 1))
    (hsize : 16 ≤ htab.htablesize ∧ htab.htablesize ≤ 2 ^ 20)
    (hmeets : RunMeets step Meets htab ops) :
    ∃ htab' stack returned, run step htab ops = some (htab', returned) ∧
      run stackStep (fun _ => []) ops = some (stack, returned) ∧
      ∀ key keyLen k, keyOf key keyLen = some k → k.length < 2 ^ 31 →
        hashLookup htab' key keyLen = some ((stack k).headD null) := by
  have hstart := represents_of_newHashTable hnew (by omega) (by omega)
  obtain ⟨htab', stack, returned, hrun, harun, chains, hholds, hstack⟩ :=
    run_of_runMeets (fun s t i hst hok => step_spec hst hok) hstart hmeets
  exact ⟨htab', stack, returned, hrun, harun,
    fun key keyLen k hkey hk => hashLookup_spec hholds hstack hkey hk⟩

/-- Two keys of one bucket: a key is added twice and deleted once, between adds and lookups
of the other. -/
theorem refines_collision :
    ∃ htab' stack returned,
      run step (⟨some (List.replicate 16 null), 16, fun _ => none⟩ : HsearchData 32)
        [.add [1, 2] 2 7 100, .add [2, 1, 0] 0 8 101, .delete [1, 2, 3] 2, .lookup [2, 1] 2] =
        some (htab', returned) ∧
      run stackStep (fun _ => [])
        [.add [1, 2] 2 7 100, .add [2, 1, 0] 0 8 101, .delete [1, 2, 3] 2, .lookup [2, 1] 2] =
        some (stack, returned) := by
  have hkey : ∀ {key : Bytes} {keyLen : Int} (k : Bytes), keyOf key keyLen = some k →
      k.length < 2 ^ 31 → IsKey key keyLen := fun k hk hlt => ⟨k, hk, hlt⟩
  have hnew : newHashTable 5 (⟨none, 0, fun _ => none⟩ : HsearchData 32) true =
      some (⟨some (List.replicate 16 null), 16, fun _ => none⟩, 1) := rfl
  have hmeets : RunMeets step Meets
      (⟨some (List.replicate 16 null), 16, fun _ => none⟩ : HsearchData 32)
      [.add [1, 2] 2 7 100, .add [2, 1, 0] 0 8 101, .delete [1, 2, 3] 2, .lookup [2, 1] 2] :=
    runMeets_cons ⟨hkey [1, 2] rfl (by decide), by decide, rfl⟩ rfl
      ⟨⟨hkey [2, 1] rfl (by decide), by decide, rfl⟩, fun _ _ _ =>
        ⟨hkey [1, 2] rfl (by decide), fun _ _ _ =>
          ⟨hkey [2, 1] rfl (by decide), fun _ _ _ => trivial⟩⟩⟩
  obtain ⟨htab', stack, returned, hrun, harun, -⟩ := refines hnew (by decide) hmeets
  exact ⟨htab', stack, returned, hrun, harun⟩

end Table

end MyTestFiles.Proofs.HashTable
