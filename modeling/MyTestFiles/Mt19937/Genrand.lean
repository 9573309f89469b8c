import MyTestFiles.Lib.Run

/-!
# `MyTestFiles.Mt19937.Genrand`: the generator of `mt19937ar.c`

The static variables are a state. An `unsigned long` is kept to 32 bits by the masks, and is a
word of 32 bits here. An access outside an array is a fault (`none`).

* The words of the source have the names of the source, and so have the constants.
* The refill of `genrand_int32` is its three loops, in place and in order, each a fold of its pass
  over the indices. A pass reads entries that the passes before have written.
* `mti` is `N + 1` before the first seed, and a call for a number seeds with the default then.
* `init_by_array` is two loops over the table, with an index that starts over behind its end
  (`wrap`), and the first loop has another index into the key. The indices are natural numbers, so
  keys of `2 ^ 31` words and more, where the `int`s of the source would wrap, are outside this
  model.
* `step` is a call of one of the functions. Its output is the word that is returned, if there is
  one.
-/

set_option autoImplicit false

namespace MyTestFiles.Mt19937

/-- An `unsigned long` under its mask. -/
abbrev Word := BitVec 32

/-- The number of words of the state. -/
def N : Nat := 624

/-- The lag of the recurrence. -/
def M : Nat := 397

/-- The constant vector of the recurrence. -/
def MATRIX_A : Word := 0x9908b0df#32

/-- The most significant bit. -/
def UPPER_MASK : Word := 0x80000000#32

/-- The other bits. -/
def LOWER_MASK : Word := 0x7fffffff#32

/-- `static unsigned long mt[N]` and `static int mti` -/
structure Genrand where
  mt : List Word
  mti : Nat

/-- The variables as the program starts. -/
def Genrand.static : Genrand := ⟨List.replicate N 0#32, N + 1⟩

/-- `mt[i] = w` -/
def assign (mt : List Word) (i : Nat) (w : Word) : Option (List Word) :=
  if i < mt.length then some (mt.set i w) else none

/-! ### Seeds -/

/-- `for (mti=1; mti<N; mti++) { .. }` -/
def initPass (mt : List Word) (mti : Nat) : Option (List Word) := do
  let w ← mt[mti - 1]?
  assign mt mti (1812433253#32 * (w ^^^ (w >>> 30)) + BitVec.ofNat 32 mti)

/-- `init_genrand` -/
def initGenrand (g : Genrand) (s : Word) : Option Genrand := do
  let mt ← assign g.mt 0 s
  let mt ← (List.range (N - 1)).foldlM (fun mt k => initPass mt (k + 1)) mt
  some ⟨mt, N⟩

/-- `if (i>=N) { mt[0] = mt[N-1]; i=1; }` -/
def wrap (mt : List Word) (i : Nat) : Option (List Word × Nat) :=
  if i ≥ N then do
    let w ← mt[N - 1]?
    let mt ← assign mt 0 w
    some (mt, 1)
  else some (mt, i)

/-- A pass of the first loop of `init_by_array`. -/
def keyPass (key : List Word) : List Word × Nat × Nat → Option (List Word × Nat × Nat)
  | (mt, i, j) => do
      let w ← mt[i]?
      let w' ← mt[i - 1]?
      let k ← key[j]?
      let mt ← assign mt i ((w ^^^ ((w' ^^^ (w' >>> 30)) * 1664525#32)) + k + BitVec.ofNat 32 j)
      let (mt, i) ← wrap mt (i + 1)
      some (mt, i, if j + 1 ≥ key.length then 0 else j + 1)

/-- A pass of the second loop. -/
def mixPass : List Word × Nat → Option (List Word × Nat)
  | (mt, i) => do
      let w ← mt[i]?
      let w' ← mt[i - 1]?
      let mt ← assign mt i ((w ^^^ ((w' ^^^ (w' >>> 30)) * 1566083941#32)) - BitVec.ofNat 32 i)
      wrap mt (i + 1)

/-- `init_by_array` -/
def initByArray (g : Genrand) (key : List Word) : Option Genrand := do
  let g ← initGenrand g 19650218#32
  let (mt, i, _) ← (List.range (if N > key.length then N else key.length)).foldlM
    (fun s _ => keyPass key s) (g.mt, 1, 0)
  let (mt, _) ← (List.range (N - 1)).foldlM (fun s _ => mixPass s) (mt, i)
  let mt ← assign mt 0 0x80000000#32
  some ⟨mt, g.mti⟩

/-! ### Numbers -/

/-- `mag01[y & 0x1UL]` -/
def mag01 (y : Word) : Word := if y &&& 1#32 = 0#32 then 0#32 else MATRIX_A

/-- `y = (u & UPPER_MASK)|(v & LOWER_MASK)` and then `w ^ (y >> 1) ^ mag01[y & 0x1UL]` -/
def twist (u v w : Word) : Word :=
  let y := (u &&& UPPER_MASK) ||| (v &&& LOWER_MASK)
  w ^^^ (y >>> 1) ^^^ mag01 y

/-- `for (kk=0;kk<N-M;kk++) { .. }` -/
def firstPass (mt : List Word) (kk : Nat) : Option (List Word) := do
  let u ← mt[kk]?
  let v ← mt[kk + 1]?
  let w ← mt[kk + M]?
  assign mt kk (twist u v w)

/-- `for (;kk<N-1;kk++) { .. }` -/
def secondPass (mt : List Word) (kk : Nat) : Option (List Word) := do
  let u ← mt[kk]?
  let v ← mt[kk + 1]?
  let w ← mt[kk - (N - M)]?
  assign mt kk (twist u v w)

/-- The last word of the table. -/
def lastPass (mt : List Word) : Option (List Word) := do
  let u ← mt[N - 1]?
  let v ← mt[0]?
  let w ← mt[M - 1]?
  assign mt (N - 1) (twist u v w)

/-- `N` words at one time. -/
def generate (mt : List Word) : Option (List Word) := do
  let mt ← (List.range (N - M)).foldlM firstPass mt
  let mt ← (List.range (M - 1)).foldlM (fun mt k => secondPass mt (N - M + k)) mt
  lastPass mt

/-- Tempering. -/
def temper (y : Word) : Word :=
  let y := y ^^^ (y >>> 11)
  let y := y ^^^ ((y <<< 7) &&& 0x9d2c5680#32)
  let y := y ^^^ ((y <<< 15) &&& 0xefc60000#32)
  y ^^^ (y >>> 18)

/-- `if (mti >= N) { .. }` -/
def refill (g : Genrand) : Option Genrand :=
  if g.mti ≥ N then do
    -- if `init_genrand` has not been called, a default initial seed is used
    let g ← if g.mti = N + 1 then initGenrand g 5489#32 else some g
    let mt ← generate g.mt
    some ⟨mt, 0⟩
  else some g

/-- `genrand_int32` -/
def genrandInt32 (g : Genrand) : Option (Genrand × Word) := do
  let g ← refill g
  let y ← g.mt[g.mti]?
  some (⟨g.mt, g.mti + 1⟩, temper y)

/-- `genrand_int31` -/
def genrandInt31 (g : Genrand) : Option (Genrand × Word) :=
  (genrandInt32 g).map fun (g, y) => (g, y >>> 1)

/-! ### Calls -/

/-- A call of one of the functions. -/
inductive Op where
  | initGenrand (s : Word)
  | initByArray (key : List Word)
  | genrandInt32
  | genrandInt31

/-- The call on the state. -/
def step (g : Genrand) : Op → Option (Genrand × Option Word)
  | .initGenrand s => (initGenrand g s).map fun g => (g, none)
  | .initByArray key => (initByArray g key).map fun g => (g, none)
  | .genrandInt32 => (genrandInt32 g).map fun r => (r.1, some r.2)
  | .genrandInt31 => (genrandInt31 g).map fun r => (r.1, some r.2)

end MyTestFiles.Mt19937
