import MyTestFiles.Lib.Run
import MyTestFiles.Lib.XorShift
import MyTestFiles.Proofs.Mt19937.Recurrence

/-!
# `MyTestFiles.Proofs.Mt19937.Numbers`: the numbers of a run

A state stands for the sequence of words that are still to come (`words`). `genrand_int32` tempers
the first and leaves the others (`genrandInt32_spec`). No seed makes a table on which only zeros
can follow (`not_dead_initWords`, `not_dead_initByArray`), and zeros come from zeros only
(`Dead.first`).

The table is a window of 624 words on one endless sequence that follows the recurrence of the
source. A refill moves the window by its own length (`Lib.Lagged`), and the index `mti` says where
in the window the next number is.

* `Dead x p` says that from `p` on only zeros follow. The recurrence reads one bit of a word and
  31 bits of the next, so a table is dead where these bits are zero, and its first word may have
  others.
* `Sound` is the invariant of a state: the table has its length, the index is in range, and the
  table that the next number comes from is not dead.
* The loops of `init_by_array` keep the length of the table and their two indices in range
  (`KeyLoop`, `MixLoop`). An empty key is read at once, which faults.
-/

set_option autoImplicit false

namespace MyTestFiles.Proofs.Mt19937

open MyTestFiles.Lib MyTestFiles.Mt19937

variable {mt : List Word} {x : Nat → Word} {g : Genrand} {i j k p : Nat} {key : List Word}

/-! ### The words of a table -/

/-- The words of a table and those that follow them. -/
def tableWords (mt : List Word) : Nat → Word :=
  lagged twist N M one_lt_N M_lt_N fun j => mt.getD j 0#32

/-- The words that a table stands for follow the recurrence. -/
theorem follows_tableWords (mt : List Word) : Follows twist N M (tableWords mt) :=
  follows_lagged one_lt_N M_lt_N _

/-- The words of the table itself come first. -/
theorem tableWords_of_getElem? {w : Word} (hj : j < N) (h : mt[j]? = some w) :
    tableWords mt j = w := by
  rw [tableWords, lagged_of_lt hj, List.getD_eq_getElem?_getD, h, Option.getD_some]

/-- A table is the first block of the words that it stands for. -/
theorem eq_block_tableWords (h : mt.length = N) : mt = block N (tableWords mt) 0 := by
  refine eq_block h fun j hj => ?_
  have hget : mt[j]? = some mt[j] := List.getElem?_eq_getElem (by omega)
  rw [tableWords_of_getElem? hj hget, hget]

/-- A block of a sequence that follows the recurrence stands for the sequence from there on. -/
theorem tableWords_block (hx : Follows twist N M x) (p k : Nat) :
    tableWords (block N x p) k = x (p + k) := by
  have hblock : ∀ j < N, tableWords (block N x p) (0 + j) = x (p + j) := by
    intro j hj
    rw [Nat.zero_add, tableWords_of_getElem? hj (getElem?_block hj)]
  have hall := (follows_tableWords (block N x p)).eq_of_block hx one_lt_N M_lt_N hblock k
  rwa [Nat.zero_add] at hall

/-! ### Tables of zeros -/

/-- The part of the table at `p` on which later words depend is zero. -/
def Dead (x : Nat → Word) (p : Nat) : Prop :=
  x p &&& UPPER_MASK = 0#32 ∧ ∀ j, 0 < j → j < N → x (p + j) = 0#32

/-- The shift and the constant of the twist lose no bit: a word that they make zero is zero. -/
theorem eq_zero_of_shift {y : Word} (h : y >>> 1 ^^^ mag01 y = 0#32) : y = 0#32 := by
  -- a shift leaves the top bit clear, and the matrix's row sets it
  have htop : (y >>> 1).getLsbD 31 = false := by
    rw [BitVec.getLsbD_ushiftRight, BitVec.getLsbD_of_ge y _ (by omega)]
  by_cases hodd : y &&& 1#32 = 0#32
  · rw [mag01, if_pos hodd, BitVec.xor_zero] at h
    have hhalf := congrArg BitVec.toNat h
    have hbit := congrArg BitVec.toNat hodd
    simp only [BitVec.toNat_ushiftRight, BitVec.toNat_and, Nat.shiftRight_one] at hhalf hbit
    refine BitVec.eq_of_toNat_eq ?_
    simp only [BitVec.toNat_ofNat, Nat.reducePow, Nat.reduceMod, Nat.and_one_is_mod]
      at hhalf hbit ⊢
    omega
  · rw [mag01, if_neg hodd, BitVec.xor_eq_zero_iff] at h
    rw [h] at htop
    exact absurd htop (by decide)

/-- A twist that adds nothing to a zero word has read zero bits only. -/
theorem eq_zero_of_twist {u v : Word} (h : twist u v 0#32 = 0#32) :
    u &&& UPPER_MASK = 0#32 ∧ v &&& LOWER_MASK = 0#32 := by
  rw [twist, BitVec.zero_xor] at h
  exact BitVec.or_eq_zero_iff.mp (eq_zero_of_shift h)

/-- The two masks cover the word. -/
theorem eq_zero_of_masks {w : Word} (hupper : w &&& UPPER_MASK = 0#32)
    (hlower : w &&& LOWER_MASK = 0#32) : w = 0#32 := by
  have hmasks : UPPER_MASK ||| LOWER_MASK = BitVec.allOnes 32 := by decide
  rw [← BitVec.and_allOnes (x := w), ← hmasks, BitVec.and_or_distrib_left, hupper, hlower,
    BitVec.or_zero]

/-- Zeros are preceded by zeros, since the recurrence can be run backwards on the bits that it
reads. -/
theorem Dead.pred (hx : Follows twist N M x) (h : Dead x (p + 1)) : Dead x p := by
  obtain ⟨hupper, hzero⟩ := h
  -- both words beside the twist are among the zeros: so is the twisted word
  have hlast : x (p + N) = 0#32 := by
    have hplace : p + 1 + (N - 1) = p + N := by
      have := one_lt_N
      omega
    rw [← hplace]
    exact hzero (N - 1) (by decide) (by decide)
  have hmiddle : x (p + M) = 0#32 := by
    have hplace : p + 1 + (M - 1) = p + M := by
      have : 0 < M := by decide
      omega
    rw [← hplace]
    exact hzero (M - 1) (by decide) (by decide)
  have htwist := hx p
  rw [hlast, hmiddle] at htwist
  obtain ⟨hbefore, hlower⟩ := eq_zero_of_twist htwist.symm
  refine ⟨hbefore, fun j hj hjN => ?_⟩
  by_cases hone : j = 1
  · -- the top bit of this word is zero by assumption, the others by the recurrence
    rw [hone]
    exact eq_zero_of_masks hupper hlower
  · have hplace : p + 1 + (j - 1) = p + j := by omega
    rw [← hplace]
    exact hzero (j - 1) (by omega) (by omega)

/-- A sequence that is dead somewhere is dead from its start. -/
theorem Dead.first (hx : Follows twist N M x) (h : Dead x p) : Dead x 0 := by
  induction p with
  | zero => exact h
  | succ p ih => exact ih (h.pred hx)

/-- Where 624 words in a row are zero, only zeros follow. -/
theorem dead_of_zeros (h : ∀ j < N, x (p + j) = 0#32) : Dead x p := by
  refine ⟨?_, fun j _ hj => h j hj⟩
  have hfirst : x p = 0#32 := h 0 (by decide)
  rw [hfirst, BitVec.zero_and]

/-- The second word of a seed is zero only where the third is not. -/
theorem not_dead_initWords (s : Word) : ¬ Dead (tableWords (block N (initWords s) 0)) 0 := by
  rintro ⟨-, hzero⟩
  have hword : ∀ j, 0 < j → j < N → initWords s j = 0#32 := by
    intro j hj hjN
    have hj0 := hzero j hj hjN
    rwa [Nat.zero_add, tableWords_of_getElem? hjN (getElem?_block hjN), Nat.zero_add] at hj0
  have hsecond : initWords s 1 = 0#32 := hword 1 (by decide) (by decide)
  have hthird : initWords s 2 = 0#32 := hword 2 (by decide) (by decide)
  rw [initWords_succ, hsecond] at hthird
  exact absurd hthird (by decide)

/-! ### States -/

/-- The state of the next call: a table that no seed has filled gets the default one. -/
def seeded (g : Genrand) : Genrand :=
  if g.mti = N + 1 then ⟨block N (initWords 5489#32) 0, N⟩ else g

/-- The words to come. -/
def words (g : Genrand) (k : Nat) : Word := tableWords (seeded g).mt ((seeded g).mti + k)

/-- What every call keeps of a state. -/
structure Sound (g : Genrand) : Prop where
  length : g.mt.length = N
  mti_le : g.mti ≤ N + 1
  alive : ¬ Dead (tableWords (seeded g).mt) 0

/-- A state with a seed is not seeded again. -/
theorem seeded_of_le (h : g.mti ≤ N) : seeded g = g := by
  rw [seeded, if_neg (by omega)]

/-- A state that is about to make a number has a table of the right length and a seed. -/
theorem Sound.seeded (h : Sound g) :
    (seeded g).mt.length = N ∧ (Mt19937.seeded g).mti ≤ N := by
  by_cases hmti : g.mti = N + 1
  · rw [Mt19937.seeded, if_pos hmti]
    simp only [length_block, le_refl, and_self]
  · have hle := h.mti_le
    rw [seeded_of_le (by omega)]
    exact ⟨h.length, by omega⟩

/-- A state with a table that is not dead is sound. -/
theorem sound_mk (hlen : mt.length = N) (hi : i ≤ N) (halive : ¬ Dead (tableWords mt) 0) :
    Sound ⟨mt, i⟩ where
  length := hlen
  mti_le := Nat.le_succ_of_le hi
  alive := by
    have hself : seeded ⟨mt, i⟩ = ⟨mt, i⟩ := seeded_of_le hi
    rwa [hself]

/-- The words to come start at the index. -/
theorem words_mk (hi : i ≤ N) (k : Nat) : words ⟨mt, i⟩ k = tableWords mt (i + k) := by
  have hself : seeded ⟨mt, i⟩ = ⟨mt, i⟩ := seeded_of_le hi
  rw [words, hself]

/-- The static variables before the first call are sound, although their table holds zeros: the
default seed comes first. -/
theorem sound_static : Sound Genrand.static where
  length := List.length_replicate
  mti_le := le_rfl
  alive := by
    have hmti : Genrand.static.mti = N + 1 := rfl
    have hmt : (seeded Genrand.static).mt = block N (initWords 5489#32) 0 := by
      rw [seeded, if_pos hmti]
    rw [hmt]
    exact not_dead_initWords 5489#32

/-! ### `genrand_int32` -/

/-- While there are words left the table stays. -/
theorem refill_of_lt (hmti : g.mti < N) : refill g = some g := by
  rw [refill, if_neg (by omega)]

/-- Behind the last word the table is made anew. -/
theorem refill_of_eq (hmti : g.mti = N) :
    refill g = (generate g.mt).bind fun mt => some ⟨mt, 0⟩ := by
  have hge : g.mti ≥ N := by omega
  have hne : ¬ g.mti = N + 1 := by omega
  rw [refill, if_pos hge, if_neg hne, Option.bind_eq_bind, Option.bind_some, Option.bind_eq_bind]

/-- A first call fills the table from the default seed. -/
theorem refill_of_unseeded (hlen : g.mt.length = N) (hmti : g.mti = N + 1) :
    refill g = (generate (block N (initWords 5489#32) 0)).bind fun mt => some ⟨mt, 0⟩ := by
  have hge : g.mti ≥ N := by omega
  rw [refill, if_pos hge, if_pos hmti, initGenrand_eq hlen, Option.bind_eq_bind, Option.bind_some,
    Option.bind_eq_bind]

/-- The default seed of `genrand_int32` is the call of `init_genrand` with it. -/
theorem genrandInt32_seeded (hlen : g.mt.length = N) :
    genrandInt32 g = genrandInt32 (seeded g) := by
  by_cases hmti : g.mti = N + 1
  · have hrefill : refill g = refill (seeded g) := by
      rw [seeded, if_pos hmti, refill_of_unseeded hlen hmti, refill_of_eq rfl]
    rw [genrandInt32, genrandInt32, hrefill]
  · rw [seeded, if_neg hmti]

/-- A number from the table as it stands. -/
theorem genrandInt32_of_lt (hlen : g.mt.length = N) (hmti : g.mti < N) :
    genrandInt32 g = some (⟨g.mt, g.mti + 1⟩, temper (tableWords g.mt g.mti)) := by
  have hget : g.mt[g.mti]? = some (tableWords g.mt g.mti) := by
    conv_lhs => rw [eq_block_tableWords hlen]
    rw [getElem?_block hmti, Nat.zero_add]
  rw [genrandInt32, refill_of_lt hmti, Option.bind_eq_bind, Option.bind_some, hget,
    Option.bind_eq_bind, Option.bind_some]

/-- A number that needs a new table. -/
theorem genrandInt32_of_eq (hlen : g.mt.length = N) (hmti : g.mti = N) :
    genrandInt32 g = some (⟨block N (tableWords g.mt) N, 1⟩, temper (tableWords g.mt N)) := by
  have hgenerate : generate g.mt = some (block N (tableWords g.mt) N) := by
    have hnext := generate_block (follows_tableWords g.mt) 0
    rwa [← eq_block_tableWords hlen, Nat.zero_add] at hnext
  have hrefill : refill g = some ⟨block N (tableWords g.mt) N, 0⟩ := by
    rw [refill_of_eq hmti, hgenerate, Option.bind_some]
  have hget : (block N (tableWords g.mt) N)[0]? = some (tableWords g.mt N) := by
    rw [getElem?_block (by decide), Nat.add_zero]
  rw [genrandInt32, hrefill, Option.bind_eq_bind, Option.bind_some, hget, Option.bind_eq_bind,
    Option.bind_some]

/-- A call returns the first of the words to come, tempered, and leaves the others. -/
theorem genrandInt32_spec (h : Sound g) :
    ∃ g', genrandInt32 g = some (g', temper (words g 0)) ∧ Sound g' ∧
      ∀ k, words g' k = words g (k + 1) := by
  obtain ⟨hlen, hle⟩ := h.seeded
  have halive := h.alive
  have hwords : ∀ k, words g k = tableWords (seeded g).mt ((seeded g).mti + k) := fun k => rfl
  rw [genrandInt32_seeded h.length, hwords, Nat.add_zero]
  generalize seeded g = t at hlen hle halive hwords
  rcases Nat.lt_or_eq_of_le hle with hlt | heq
  · refine ⟨⟨t.mt, t.mti + 1⟩, genrandInt32_of_lt hlen hlt, sound_mk hlen hlt halive,
      fun k => ?_⟩
    rw [words_mk hlt, hwords, Nat.succ_add_eq_add_succ]
  · have hfollows := follows_tableWords t.mt
    have hone : 1 ≤ N := by decide
    refine ⟨⟨block N (tableWords t.mt) N, 1⟩, ?_, sound_mk (length_block N _ N) hone ?_,
      fun k => ?_⟩
    · rw [genrandInt32_of_eq hlen heq, heq]
    · -- the words of the new table are later words of the old one
      rintro ⟨hupper, hzero⟩
      refine halive (Dead.first hfollows (p := N) ⟨?_, fun j hj hjN => ?_⟩)
      · rwa [tableWords_block hfollows] at hupper
      · have hj0 := hzero j hj hjN
        rwa [tableWords_block hfollows, Nat.zero_add] at hj0
    · rw [words_mk hone, tableWords_block hfollows, hwords, heq, Nat.add_comm 1 k]

/-! ### `init_by_array` -/

/-- The wrap of an index keeps the table's length and brings the index back into the table. -/
theorem wrap_spec (hlen : mt.length = N) (hi : 0 < i) (hiN : i ≤ N) :
    ∃ mt' i', wrap mt i = some (mt', i') ∧ mt'.length = N ∧ 0 < i' ∧ i' < N := by
  by_cases hend : i ≥ N
  · have hget : mt[N - 1]? = some mt[N - 1] := List.getElem?_eq_getElem (by omega)
    refine ⟨mt.set 0 mt[N - 1], 1, ?_, by rw [List.length_set, hlen], Nat.one_pos, one_lt_N⟩
    rw [wrap, if_pos hend, hget, Option.bind_eq_bind, Option.bind_some, assign_of_lt (by omega),
      Option.bind_eq_bind, Option.bind_some]
  · exact ⟨mt, i, by rw [wrap, if_neg hend], hlen, hi, by omega⟩

/-- The table and the indices of the first loop. -/
def KeyLoop (key : List Word) : List Word × Nat × Nat → Prop
  | (mt, i, j) => mt.length = N ∧ 0 < i ∧ i < N ∧ j < key.length

/-- A pass of the first loop reads within the table and the key. -/
theorem keyPass_spec (s : List Word × Nat × Nat) (h : KeyLoop key s) :
    ∃ s', keyPass key s = some s' ∧ KeyLoop key s' := by
  obtain ⟨mt, i, j⟩ := s
  obtain ⟨hlen, hi, hiN, hj⟩ := h
  have hget : mt[i]? = some mt[i] := List.getElem?_eq_getElem (by omega)
  have hbefore : mt[i - 1]? = some mt[i - 1] := List.getElem?_eq_getElem (by omega)
  have hkey : key[j]? = some key[j] := List.getElem?_eq_getElem hj
  let w := (mt[i] ^^^ ((mt[i - 1] ^^^ (mt[i - 1] >>> 30)) * 1664525#32)) + key[j] +
    BitVec.ofNat 32 j
  have hset : (mt.set i w).length = N := by rw [List.length_set, hlen]
  obtain ⟨mt', i', hwrap, hlen', hi', hiN'⟩ := wrap_spec hset (Nat.succ_pos i) hiN
  refine ⟨(mt', i', if j + 1 ≥ key.length then 0 else j + 1), ?_, hlen', hi', hiN', ?_⟩
  · simp only [keyPass, hget, hbefore, hkey, assign_of_getElem? hget, Option.bind_eq_bind,
      Option.bind_some]
    rw [hwrap, Option.bind_some]
  · split <;> omega

/-- There is nothing to read in an empty key. -/
theorem keyPass_nil (s : List Word × Nat × Nat) : keyPass [] s = none := by
  obtain ⟨mt, i, j⟩ := s
  cases hi : mt[i]? <;> cases hbefore : mt[i - 1]? <;> simp [keyPass, hi, hbefore]

/-- The table and the index of the second loop. -/
def MixLoop : List Word × Nat → Prop
  | (mt, i) => mt.length = N ∧ 0 < i ∧ i < N

/-- A pass of the second loop reads within the table. -/
theorem mixPass_spec (s : List Word × Nat) (h : MixLoop s) :
    ∃ s', mixPass s = some s' ∧ MixLoop s' := by
  obtain ⟨mt, i⟩ := s
  obtain ⟨hlen, hi, hiN⟩ := h
  have hget : mt[i]? = some mt[i] := List.getElem?_eq_getElem (by omega)
  have hbefore : mt[i - 1]? = some mt[i - 1] := List.getElem?_eq_getElem (by omega)
  let w := (mt[i] ^^^ ((mt[i - 1] ^^^ (mt[i - 1] >>> 30)) * 1566083941#32)) - BitVec.ofNat 32 i
  have hset : (mt.set i w).length = N := by rw [List.length_set, hlen]
  obtain ⟨mt', i', hwrap, hlen', hi', hiN'⟩ := wrap_spec hset (Nat.succ_pos i) hiN
  refine ⟨(mt', i'), ?_, hlen', hi', hiN'⟩
  simp only [mixPass, hget, hbefore, assign_of_getElem? hget, Option.bind_eq_bind,
    Option.bind_some]
  exact hwrap

/-- A key of any length fills the table, and its first word is not zero. -/
theorem initByArray_spec (hlen : g.mt.length = N) (hkey : key ≠ []) :
    ∃ mt, initByArray g key = some ⟨mt, N⟩ ∧ mt.length = N ∧ mt[0]? = some 0x80000000#32 := by
  have hj : 0 < key.length := List.length_pos_iff.mpr hkey
  obtain ⟨⟨mt₁, i₁, j₁⟩, hfirst, hlen₁, hi₁, hiN₁, -⟩ :=
    foldlM_range_rule (n := if N > key.length then N else key.length) (fun _ => KeyLoop key)
      (fun _ s _ hs => keyPass_spec s hs) (s := (block N (initWords 19650218#32) 0, 1, 0))
      ⟨length_block N _ 0, Nat.one_pos, one_lt_N, hj⟩
  obtain ⟨⟨mt₂, i₂⟩, hsecond, hlen₂, -, -⟩ :=
    foldlM_range_rule (n := N - 1) (fun _ => MixLoop) (fun _ s _ hs => mixPass_spec s hs)
      (s := (mt₁, i₁)) ⟨hlen₁, hi₁, hiN₁⟩
  have hzero : 0 < mt₂.length := by
    rw [hlen₂]
    decide
  refine ⟨mt₂.set 0 0x80000000#32, ?_, by rw [List.length_set, hlen₂],
    List.getElem?_set_self hzero⟩
  simp only [initByArray, initGenrand_eq hlen, hfirst, hsecond, assign_of_lt hzero,
    Option.bind_eq_bind, Option.bind_some]

/-- A loop with at least one pass faults where every pass does. -/
theorem foldlM_eq_none {σ : Type*} {pass : σ → Nat → Option σ} (h : ∀ s i, pass s i = none)
    {n : Nat} (hn : 0 < n) (s : σ) : (List.range n).foldlM pass s = none := by
  obtain ⟨m, rfl⟩ := Nat.exists_eq_succ_of_ne_zero (Nat.ne_of_gt hn)
  rw [List.range_succ_eq_map, List.foldlM_cons, h, Option.bind_eq_bind, Option.bind_none]

/-- `init_by_array` faults with an empty key. -/
theorem initByArray_nil (hlen : g.mt.length = N) : initByArray g [] = none := by
  have hpasses : 0 < if N > ([] : List Word).length then N else ([] : List Word).length := by
    decide
  simp only [initByArray, initGenrand_eq hlen, Option.bind_eq_bind, Option.bind_some,
    foldlM_eq_none (fun s _ => keyPass_nil s) hpasses, Option.bind_none]

/-- `MSB is 1; assuring non-zero initial array` -/
theorem not_dead_initByArray (h : mt[0]? = some 0x80000000#32) :
    ¬ Dead (tableWords mt) 0 := by
  rintro ⟨hupper, -⟩
  rw [tableWords_of_getElem? (by decide) h] at hupper
  exact absurd hupper (by decide)

end MyTestFiles.Proofs.Mt19937
