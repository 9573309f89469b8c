import MyTestFiles.Proofs.Mt19937.Numbers

/-!
# `MyTestFiles.Proofs.Mt19937.Runs`: the numbers of a run

After any calls, `init_genrand` starts the sequence of its seed (`initGenrand_numbers`). `N`
numbers in a row determine all that follow until the next seed (`genrandInt32_determined`), and
they are never all zero (`genrandInt32_not_zeros`). The only call that leaves an array is
`init_by_array` with an empty key (`run_eq_none_iff`).

The state of the generator is the block of the last `N` words and an index into it. `Sound` says
that the index is inside or at the end of the block, or at the value that stands for a generator
without a seed. All calls keep it, so all results here are about every state that a program can
reach.

The words of a sound state are a sequence that goes on after the block (`words`), and it is the
same sequence wherever in a block the state is. That is why the results do not mention refills.

* The tempering is a bijection on words, so numbers and words determine each other.
* The recurrence can be solved for each of its terms, so `N` words in a row determine the others.
-/

set_option autoImplicit false

namespace MyTestFiles.Proofs.Mt19937

open MyTestFiles.Lib MyTestFiles.Mt19937

variable {g g' : Genrand} {ops ops' : List Op} {os os' : List (Option Word)}

/-! ### Tempering -/

/-- Different words give different numbers. -/
theorem temper_injective : Function.Injective temper := by
  have hsteps : temper = (fun y : Word => y ^^^ (y >>> 18)) ∘
      (fun y : Word => y ^^^ ((y <<< 15) &&& 0xefc60000#32)) ∘
      (fun y : Word => y ^^^ ((y <<< 7) &&& 0x9d2c5680#32)) ∘
      fun y : Word => y ^^^ (y >>> 11) := rfl
  rw [hsteps]
  exact (xor_ushiftRight_injective (by decide)).comp
    ((xor_shiftLeft_and_injective (by decide) _).comp
      ((xor_shiftLeft_and_injective (by decide) _).comp (xor_ushiftRight_injective (by decide))))

/-- Only the zero word gives the number zero. -/
theorem eq_zero_of_temper {y : Word} (h : temper y = 0#32) : y = 0#32 := by
  have hzero : temper 0#32 = 0#32 := by decide
  exact temper_injective (h.trans hzero.symm)

/-! ### Calls -/

/-- Every call but that with an empty key ends, in a sound state. -/
theorem step_spec (h : Sound g) {op : Op} (hop : op ≠ .initByArray []) :
    ∃ g' o, step g op = some (g', o) ∧ Sound g' := by
  cases op with
  | initGenrand s =>
      refine ⟨⟨block N (initWords s) 0, N⟩, none, ?_,
        sound_mk (length_block N _ 0) le_rfl (not_dead_initWords s)⟩
      rw [step, initGenrand_eq h.length, Option.map_some]
  | initByArray key =>
      have hkey : key ≠ [] := fun hnil => hop (by rw [hnil])
      obtain ⟨mt, hinit, hlen, hfirst⟩ := initByArray_spec h.length hkey
      refine ⟨⟨mt, N⟩, none, ?_, sound_mk hlen le_rfl (not_dead_initByArray hfirst)⟩
      rw [step, hinit, Option.map_some]
  | genrandInt32 =>
      obtain ⟨g', hnumber, hsound, -⟩ := genrandInt32_spec h
      refine ⟨g', some (temper (words g 0)), ?_, hsound⟩
      rw [step, hnumber, Option.map_some]
  | genrandInt31 =>
      obtain ⟨g', hnumber, hsound, -⟩ := genrandInt32_spec h
      refine ⟨g', some (temper (words g 0) >>> 1), ?_, hsound⟩
      rw [step, genrandInt31, hnumber, Option.map_some, Option.map_some]

/-- An empty key leaves the array that holds it. -/
theorem step_nil (h : Sound g) : step g (.initByArray []) = none := by
  rw [step, initByArray_nil h.length, Option.map_none]

/-- Every run keeps a sound state sound. -/
theorem sound_run (h : Sound g) (hrun : run step g ops = some (g', os)) : Sound g' := by
  refine run_invariant Sound (fun _ => True) (fun t op t' o ht _ hstep => ?_) h (fun _ _ => trivial)
    hrun
  by_cases hop : op = .initByArray []
  · rw [hop, step_nil ht] at hstep
    cases hstep
  · obtain ⟨t₁, o₁, hspec, hsound⟩ := step_spec ht hop
    rw [hspec] at hstep
    cases hstep
    exact hsound

/-- From a sound state a run faults just where a call has an empty key. -/
theorem run_eq_none_iff_of_sound (h : Sound g) :
    run step g ops = none ↔ Op.initByArray [] ∈ ops := by
  induction ops generalizing g with
  | nil => simp
  | cons op ops ih =>
      by_cases hop : op = .initByArray []
      · simp [run, hop, step_nil h]
      · obtain ⟨t, o, hstep, ht⟩ := step_spec h hop
        have hne : ¬ Op.initByArray [] = op := fun heq => hop heq.symm
        simp only [run, hstep, Option.map_eq_none_iff, List.mem_cons, hne, false_or]
        exact ih ht

/-- No run leaves an array, except by an empty key. -/
theorem run_eq_none_iff (ops : List Op) :
    run step Genrand.static ops = none ↔ Op.initByArray [] ∈ ops :=
  run_eq_none_iff_of_sound sound_static

/-! ### Numbers -/

/-- What the next `n` calls of `genrand_int32` return. -/
def numbers (g : Genrand) (n : Nat) : Option (List (Option Word)) :=
  (run step g (List.replicate n .genrandInt32)).map Prod.snd

/-- A row of `genrand_int32` calls gives the words of the state, tempered. -/
theorem run_genrandInt32 (h : Sound g) (n : Nat) :
    ∃ g', run step g (List.replicate n .genrandInt32) =
      some (g', (List.range n).map fun k => some (temper (words g k))) := by
  induction n generalizing g with
  | zero => exact ⟨g, rfl⟩
  | succ n ih =>
      obtain ⟨t, hnumber, ht, hwords⟩ := genrandInt32_spec h
      obtain ⟨g', hrest⟩ := ih ht
      have hstep : step g .genrandInt32 = some (t, some (temper (words g 0))) := by
        rw [step, hnumber, Option.map_some]
      refine ⟨g', ?_⟩
      rw [List.replicate_succ, run_cons_of_step hstep hrest, List.range_succ_eq_map,
        List.map_cons, List.map_map]
      simp only [hwords, Function.comp_def, Nat.succ_eq_add_one]

/-- The first `n` numbers of a state are its first `n` words, tempered. -/
theorem numbers_eq (h : Sound g) (n : Nat) :
    numbers g n = some ((List.range n).map fun k => some (temper (words g k))) := by
  obtain ⟨g', hrun⟩ := run_genrandInt32 h n
  rw [numbers, hrun, Option.map_some]

/-- Equal numbers come from equal words. -/
theorem words_eq_of_numbers (h : Sound g) (h' : Sound g') {n : Nat}
    (hsame : numbers g n = numbers g' n) : ∀ k < n, words g k = words g' k := by
  intro k hk
  rw [numbers_eq h, numbers_eq h', Option.some.injEq] at hsame
  have hnumber := List.map_inj_left.mp hsame k (List.mem_range.mpr hk)
  exact temper_injective (Option.some.inj hnumber)

/-- The words of every state follow the recurrence. -/
theorem follows_words (g : Genrand) : Follows twist N M (words g) := by
  intro k
  have hfollows := follows_tableWords (seeded g).mt ((seeded g).mti + k)
  simpa only [words, Nat.add_assoc] using hfollows

/-! ### Whole runs -/

/-- The sequence that starts with the words of a seed. -/
def seedWords (s : Word) : Nat → Word := lagged twist N M one_lt_N M_lt_N (initWords s)

/-- The sequence of a seed follows the recurrence. -/
theorem follows_seedWords (s : Word) : Follows twist N M (seedWords s) :=
  follows_lagged one_lt_N M_lt_N _

/-- Right after `init_genrand` the first number comes from the first word behind the seeded block.
-/
theorem words_initGenrand (s : Word) (k : Nat) :
    words ⟨block N (initWords s) 0, N⟩ k = seedWords s (N + k) := by
  have hblock : block N (initWords s) 0 = block N (seedWords s) 0 := by
    refine List.map_congr_left fun j hj => ?_
    rw [seedWords, lagged_of_lt (by simpa using hj)]
  rw [words_mk le_rfl, hblock, tableWords_block (follows_seedWords s), Nat.zero_add]

/-- A generator without a seed behaves as one with the default seed. -/
theorem words_static : words Genrand.static = words ⟨block N (initWords 5489#32) 0, N⟩ := by
  have hmti : Genrand.static.mti = N + 1 := rfl
  funext k
  rw [words_mk le_rfl, words, seeded, if_pos hmti]

/-- Whatever the calls before it, `init_genrand` starts the sequence of its seed. Where no seed is
given it is that of the default seed. -/
theorem initGenrand_numbers (hrun : run step Genrand.static ops = some (g, os)) (s : Word)
    (n : Nat) :
    (∃ g', run step g (.initGenrand s :: List.replicate n .genrandInt32) =
      some (g', none :: (List.range n).map fun k => some (temper (seedWords s (N + k))))) ∧
    ∃ g', run step Genrand.static (List.replicate n .genrandInt32) =
      some (g', (List.range n).map fun k => some (temper (seedWords 5489#32 (N + k)))) := by
  have hlen : g.mt.length = N := (sound_run sound_static hrun).length
  have hstep : step g (.initGenrand s) = some (⟨block N (initWords s) 0, N⟩, none) := by
    rw [step, initGenrand_eq hlen, Option.map_some]
  have hseeded : Sound ⟨block N (initWords s) 0, N⟩ :=
    sound_mk (length_block N _ 0) le_rfl (not_dead_initWords s)
  constructor
  · obtain ⟨g', hnumbers⟩ := run_genrandInt32 hseeded n
    refine ⟨g', ?_⟩
    rw [run_cons_of_step hstep hnumbers]
    simp only [words_initGenrand]
  · obtain ⟨g', hnumbers⟩ := run_genrandInt32 sound_static n
    refine ⟨g', ?_⟩
    rw [hnumbers]
    simp only [words_static, words_initGenrand]

/-- The first `init_genrand` of a program. -/
theorem run_initGenrand (s : Word) : run step Genrand.static [.initGenrand s] =
    some (⟨block N (initWords s) 0, N⟩, [none]) := by
  have hstep : step Genrand.static (.initGenrand s) =
      some (⟨block N (initWords s) 0, N⟩, none) := by
    rw [step, initGenrand_eq sound_static.length, Option.map_some]
  exact run_cons_of_step hstep (run_nil _ _)

/-- A second seed starts over, and its sequence goes on through a refill. -/
theorem initGenrand_numbers_again :
    ∃ g', run step ⟨block N (initWords 1#32) 0, N⟩
      (.initGenrand 2#32 :: List.replicate 1000 .genrandInt32) =
      some (g', none :: (List.range 1000).map fun k => some (temper (seedWords 2#32 (N + k)))) :=
  (initGenrand_numbers (run_initGenrand 1#32) 2#32 1000).1

/-- `N` numbers in a row determine all numbers up to the next seed, in whatever runs they come. -/
theorem genrandInt32_determined (hrun : run step Genrand.static ops = some (g, os))
    (hrun' : run step Genrand.static ops' = some (g', os')) (hsame : numbers g N = numbers g' N)
    (n : Nat) : numbers g n = numbers g' n := by
  have h : Sound g := sound_run sound_static hrun
  have h' : Sound g' := sound_run sound_static hrun'
  have hblock : ∀ j < N, words g (0 + j) = words g' (0 + j) := by
    intro j hj
    rw [Nat.zero_add]
    exact words_eq_of_numbers h h' hsame j hj
  have hwords : ∀ k, words g k = words g' k := by
    intro k
    have hk := (follows_words g).eq_of_block (follows_words g') one_lt_N M_lt_N hblock k
    rwa [Nat.zero_add] at hk
  rw [numbers_eq h, numbers_eq h']
  simp only [hwords]

/-- No seed and the default seed. -/
theorem genrandInt32_determined_default :
    numbers Genrand.static 1000 = numbers ⟨block N (initWords 5489#32) 0, N⟩ 1000 := by
  have hsame : numbers Genrand.static N = numbers ⟨block N (initWords 5489#32) 0, N⟩ N := by
    rw [numbers_eq sound_static, words_static,
      numbers_eq (sound_run sound_static (run_initGenrand 5489#32))]
  exact genrandInt32_determined (run_nil _ _) (run_initGenrand 5489#32) hsame 1000

/-- Whatever the seeds, `N` numbers in a row are not all zero. -/
theorem genrandInt32_not_zeros (hrun : run step Genrand.static ops = some (g, os)) :
    numbers g N ≠ some (List.replicate N (some 0#32)) := by
  intro hzeros
  have h : Sound g := sound_run sound_static hrun
  have hconst : List.replicate N (some 0#32) = (List.range N).map fun _ => some 0#32 := by
    rw [List.map_const', List.length_range]
  rw [numbers_eq h, Option.some.injEq, hconst] at hzeros
  have hword : ∀ k < N, tableWords (seeded g).mt ((seeded g).mti + k) = 0#32 := by
    intro k hk
    have hnumber := List.map_inj_left.mp hzeros k (List.mem_range.mpr hk)
    exact eq_zero_of_temper (Option.some.inj hnumber)
  -- a table of zeros has only come from one
  exact h.alive ((dead_of_zeros hword).first (follows_tableWords _))

/-- The first `N` numbers of seed 1 are not all zero. -/
theorem genrandInt32_not_zeros_one :
    numbers ⟨block N (initWords 1#32) 0, N⟩ N ≠ some (List.replicate N (some 0#32)) :=
  genrandInt32_not_zeros (run_initGenrand 1#32)

end MyTestFiles.Proofs.Mt19937
