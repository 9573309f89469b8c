import Mathlib

/-!
# `MyTestFiles.Lib.Bpf`: packet filter programs

A filter is a table of `sock_filter` entries: an opcode, two relative jump offsets and a
constant. The machine has the accumulator `A` and the index register `X`. A load past the
end of the packet ends the run with 0, which rejects the packet. The instructions here are
the loads from the packet, the comparisons with a constant and the return of a constant.

Jumps only go forward, so `exec` recurses on the program, with the number of instructions
that are still to be skipped. The rules for `Passes` take a program apart from its front.

A program is kept in the two forms that the source and the proofs need. The table of the source is
a list of numbers, and `decode` reads each entry as an instruction, or fails. A table all of whose
entries decode is then proved about as a list of instructions (`accepts_iff_passes`).

`Passes p program skip a x` says that the rest of a run accepts the packet. There is one rule for
each instruction, and each rule takes the instruction off the front of the program, so a filter is
computed by `simp` with these rules.
-/

set_option autoImplicit false

namespace MyTestFiles.Lib.Bpf

/-- `struct sock_filter`. -/
structure SockFilter where
  code : Nat
  jt : Nat
  jf : Nat
  k : Nat
  deriving Repr, DecidableEq

/-- The width of a load: `ld`, `ldh` and `ldb`. -/
inductive Size where
  | w
  | h
  | b
  deriving Repr, DecidableEq

/-- The bytes that a load reads. -/
def Size.bytes : Size → Nat
  | .w => 4
  | .h => 2
  | .b => 1

/-- The comparisons of `A` with a constant. -/
inductive Test where
  | jeq
  | jgt
  | jge
  | jset
  deriving Repr, DecidableEq

/-- The outcome of a comparison of `A` with a constant. -/
def Test.holds (a k : Nat) : Test → Bool
  | .jeq => a == k
  | .jgt => k < a
  | .jge => k ≤ a
  | .jset => a &&& k != 0

/-- The instructions. -/
inductive Instr where
  /-- `ld [k]`: load `A` from the packet. -/
  | ldAbs (size : Size) (k : Nat)
  /-- `ld [x + k]`. -/
  | ldInd (size : Size) (k : Nat)
  /-- `ldxb 4*([k]&0xf)`: load `X` with an IP header length. -/
  | ldxMsh (k : Nat)
  | jump (test : Test) (k jt jf : Nat)
  | ret (k : Nat)
  deriving Repr, DecidableEq

/-- The instruction of a table entry. -/
def decode (f : SockFilter) : Option Instr :=
  match f.code with
  | 0x20 => some (.ldAbs .w f.k)
  | 0x28 => some (.ldAbs .h f.k)
  | 0x30 => some (.ldAbs .b f.k)
  | 0x40 => some (.ldInd .w f.k)
  | 0x48 => some (.ldInd .h f.k)
  | 0x50 => some (.ldInd .b f.k)
  | 0xb1 => some (.ldxMsh f.k)
  | 0x15 => some (.jump .jeq f.k f.jt f.jf)
  | 0x25 => some (.jump .jgt f.k f.jt f.jf)
  | 0x35 => some (.jump .jge f.k f.jt f.jf)
  | 0x45 => some (.jump .jset f.k f.jt f.jf)
  | 0x06 => some (.ret f.k)
  | _ => none

/-- The number in the `n` bytes from `k`, first byte most significant: `p[k:n]`. -/
def field (p : List UInt8) (k : Nat) : Nat → Nat
  | 0 => 0
  | n + 1 => field p k n * 256 + (p.getD (k + n) 0).toNat

/-- A load from the packet. Past its end there is none. -/
def load (p : List UInt8) (size : Size) (k : Nat) : Option Nat :=
  if k + size.bytes ≤ p.length then some (field p k size.bytes) else none

/-- The rest of a run: `skip` instructions are still to be jumped over. Without a result
the run has left the program. -/
def exec (p : List UInt8) : List Instr → Nat → Nat → Nat → Option Nat
  | [], _, _, _ => none
  | _ :: rest, skip + 1, a, x => exec p rest skip a x
  | .ldAbs size k :: rest, 0, _, x =>
      match load p size k with
      | some v => exec p rest 0 v x
      | none => some 0
  | .ldInd size k :: rest, 0, _, x =>
      match load p size (x + k) with
      | some v => exec p rest 0 v x
      | none => some 0
  | .ldxMsh k :: rest, 0, a, _ =>
      match load p .b k with
      | some v => exec p rest 0 a (4 * (v &&& 0xf))
      | none => some 0
  | .jump test k jt jf :: rest, 0, a, x =>
      exec p rest (if test.holds a k then jt else jf) a x
  | .ret k :: _, 0, _, _ => some k

/-- Run a table on a packet: the number of bytes to keep of it. -/
def runFilter (code : List SockFilter) (p : List UInt8) : Option Nat := do
  let program ← code.mapM decode
  exec p program 0 0 0

/-- The filter keeps some of the packet. -/
def Accepts (code : List SockFilter) (p : List UInt8) : Prop :=
  ∃ n, runFilter code p = some n ∧ n ≠ 0

/-! ### Loads -/

section Loads
variable {p : List UInt8} {size : Size} {k v n : Nat}

/-- A load succeeds inside the packet and gives the field there. -/
theorem load_eq_some :
    load p size k = some v ↔ k + size.bytes ≤ p.length ∧ v = field p k size.bytes := by
  simp only [load]
  split_ifs with h
  · simp [h, eq_comm]
  · simp [h]

/-- A field of the rest of a packet. -/
theorem field_drop : field (p.drop n) k size.bytes = field p (n + k) size.bytes := by
  induction size.bytes with
  | zero => rfl
  | succ m ih =>
      show field (p.drop n) k m * 256 + _ = field p (n + k) m * 256 + _
      rw [ih]
      simp [Nat.add_assoc]

/-- Loads from a packet without its first `n` bytes. -/
theorem load_drop : load (p.drop n) size k = load p size (n + k) := by
  have hpos : 0 < size.bytes := by cases size <;> decide
  simp only [load, List.length_drop, field_drop]
  exact if_congr (by omega) rfl rfl

end Loads

/-! ### Runs that end in a nonzero return -/

/-- The rest of a run keeps some of the packet. -/
def Passes (p : List UInt8) (program : List Instr) (skip a x : Nat) : Prop :=
  ∃ n, exec p program skip a x = some n ∧ n ≠ 0

section Passes
variable {p : List UInt8} {rest : List Instr} {a x k : Nat}

/-- An instruction that is jumped over. -/
@[simp]
theorem passes_skip {i : Instr} {skip : Nat} :
    Passes p (i :: rest) (skip + 1) a x ↔ Passes p rest skip a x := Iff.rfl

/-- A load at a fixed place goes on with the field in `A`. -/
@[simp]
theorem passes_ldAbs {size : Size} :
    Passes p (.ldAbs size k :: rest) 0 a x ↔
      ∃ v, load p size k = some v ∧ Passes p rest 0 v x := by
  simp only [Passes, exec]
  cases load p size k with
  | none => simp
  | some v => simp

/-- A load relative to `X` goes on with the field in `A`. -/
@[simp]
theorem passes_ldInd {size : Size} :
    Passes p (.ldInd size k :: rest) 0 a x ↔
      ∃ v, load p size (x + k) = some v ∧ Passes p rest 0 v x := by
  simp only [Passes, exec]
  cases load p size (x + k) with
  | none => simp
  | some v => simp

/-- The load of the length of an IP header goes on with it in `X`. -/
@[simp]
theorem passes_ldxMsh :
    Passes p (.ldxMsh k :: rest) 0 a x ↔
      ∃ v, load p .b k = some v ∧ Passes p rest 0 a (4 * (v &&& 0xf)) := by
  simp only [Passes, exec]
  cases load p .b k with
  | none => simp
  | some v => simp

/-- A jump skips as many instructions as its outcome says. -/
theorem passes_jump {test : Test} {jt jf : Nat} :
    Passes p (.jump test k jt jf :: rest) 0 a x ↔
      Passes p rest (if test.holds a k then jt else jf) a x := Iff.rfl

/-- A comparison that rejects when it holds. -/
@[simp]
theorem passes_jump_jf {test : Test} {jt jf : Nat} (h : ¬Passes p rest jt a x) :
    Passes p (.jump test k jt jf :: rest) 0 a x ↔
      test.holds a k = false ∧ Passes p rest jf a x := by
  rw [passes_jump]
  cases test.holds a k with
  | true => simp [h]
  | false => simp

/-- A comparison that rejects when it fails. -/
@[simp]
theorem passes_jump_jt {test : Test} {jt jf : Nat} (h : ¬Passes p rest jf a x) :
    Passes p (.jump test k jt jf :: rest) 0 a x ↔
      test.holds a k = true ∧ Passes p rest jt a x := by
  rw [passes_jump]
  cases test.holds a k with
  | true => simp
  | false => simp [h]

/-- A return accepts unless its constant is zero. -/
@[simp]
theorem passes_ret : Passes p (.ret k :: rest) 0 a x ↔ k ≠ 0 := by
  simp [Passes, exec]

/-- A table that decodes accepts what its instructions pass. -/
theorem accepts_iff_passes {code : List SockFilter} {program : List Instr}
    (h : code.mapM decode = some program) : Accepts code p ↔ Passes p program 0 0 0 := by
  simp [Accepts, Passes, runFilter, h]

end Passes

/-! ### Programs that always return -/

/-- Every jump stays inside the program, and its last instruction returns. -/
def closed : List Instr → Bool
  | [] => false
  | .ret _ :: rest => rest.isEmpty || closed rest
  | .jump _ _ jt jf :: rest => jt < rest.length && jf < rest.length && closed rest
  | _ :: rest => closed rest

/-- A program whose jumps stay inside it is not empty. -/
theorem length_pos_of_closed {program : List Instr} (h : closed program = true) :
    0 < program.length := by
  cases program with
  | nil => cases h
  | cons i rest => exact Nat.succ_pos _

/-- A closed program returns on every packet. -/
theorem exec_of_closed {p : List UInt8} {program : List Instr} {skip a x : Nat}
    (h : closed program = true) (hskip : skip < program.length) :
    ∃ n, exec p program skip a x = some n := by
  induction program generalizing skip a x with
  | nil => cases h
  | cons i rest ih =>
      cases skip with
      | succ skip =>
          have hrest : skip < rest.length := Nat.lt_of_succ_lt_succ hskip
          have hclosed : closed rest = true := by
            -- a skipped return may end the program: then nothing is left to skip to
            cases i with
            | ret k =>
                cases rest with
                | nil => exact absurd hrest (Nat.not_lt_zero _)
                | cons j rest => exact h
            | jump test k jt jf =>
                simp only [closed, Bool.and_eq_true] at h
                exact h.2
            | ldAbs size k => exact h
            | ldInd size k => exact h
            | ldxMsh k => exact h
          exact ih hclosed hrest
      | zero =>
          cases i with
          | ret k => exact ⟨k, rfl⟩
          | jump test k jt jf =>
              simp only [closed, Bool.and_eq_true, decide_eq_true_eq] at h
              obtain ⟨⟨hjt, hjf⟩, hclosed⟩ := h
              show ∃ n, exec p rest (if test.holds a k then jt else jf) a x = some n
              exact ih hclosed (by split_ifs <;> assumption)
          | ldAbs size k =>
              show ∃ n, (match load p size k with
                | some v => exec p rest 0 v x
                | none => some 0) = some n
              cases load p size k with
              | none => exact ⟨0, rfl⟩
              | some v => exact ih h (length_pos_of_closed h)
          | ldInd size k =>
              show ∃ n, (match load p size (x + k) with
                | some v => exec p rest 0 v x
                | none => some 0) = some n
              cases load p size (x + k) with
              | none => exact ⟨0, rfl⟩
              | some v => exact ih h (length_pos_of_closed h)
          | ldxMsh k =>
              show ∃ n, (match load p .b k with
                | some v => exec p rest 0 a (4 * (v &&& 0xf))
                | none => some 0) = some n
              cases load p .b k with
              | none => exact ⟨0, rfl⟩
              | some v => exact ih h (length_pos_of_closed h)

/-- The filter returns on every packet. -/
theorem runFilter_of_closed {code : List SockFilter} {program : List Instr}
    (hdecode : code.mapM decode = some program) (h : closed program = true) (p : List UInt8) :
    ∃ n, runFilter code p = some n := by
  obtain ⟨n, hn⟩ := exec_of_closed (p := p) (a := 0) (x := 0) h (length_pos_of_closed h)
  exact ⟨n, by simp [runFilter, hdecode, hn]⟩

end MyTestFiles.Lib.Bpf
