import Mathlib

/-!
# `MyTestFiles.Lib.XorShift`: words mixed with their own shifts

A word mixed with itself, shifted by one place or more and masked, determines the word: from the
side the bits are shifted away from, each bit of the word is a bit of the mixed one and a bit that
is known by then.

The two directions need different arguments, because a word has a low end and a high end, but the
same idea: induction on the distance from the end that is left alone.

A chain of such steps is injective because each of them is, and an injective function on words of
one width is a bijection. That is how the output function of a generator is shown to lose nothing
of its state.

The mask of the left shift is arbitrary. For the right shift a version without a mask is enough
for the programs here.
-/

set_option autoImplicit false

namespace MyTestFiles.Lib

variable {w s : Nat}

/-- Mixing with a right shift loses nothing. -/
theorem xor_ushiftRight_injective (hs : 0 < s) :
    Function.Injective fun x : BitVec w => x ^^^ (x >>> s) := by
  intro x y h
  -- the bits from the top down: `d` is the distance to it
  have hbits : ∀ d i, w ≤ i + d → x.getLsbD i = y.getLsbD i := by
    intro d
    induction d with
    | zero =>
        intro i hi
        rw [BitVec.getLsbD_of_ge x i hi, BitVec.getLsbD_of_ge y i hi]
    | succ d ih =>
        intro i hi
        have hmixed := congrArg (BitVec.getLsbD · i) h
        simp only [BitVec.getLsbD_xor, BitVec.getLsbD_ushiftRight, ih (s + i) (by omega)] at hmixed
        exact Bool.xor_left_inj.mp hmixed
  exact BitVec.eq_of_getLsbD_eq fun i _ => hbits w i (by omega)

/-- Mixing with a masked left shift loses nothing. -/
theorem xor_shiftLeft_and_injective (hs : 0 < s) (m : BitVec w) :
    Function.Injective fun x : BitVec w => x ^^^ ((x <<< s) &&& m) := by
  intro x y h
  have hbits : ∀ i, x.getLsbD i = y.getLsbD i := by
    intro i
    induction i using Nat.strong_induction_on with
    | _ i ih =>
        have hshifted : (x <<< s).getLsbD i = (y <<< s).getLsbD i := by
          simp only [BitVec.getLsbD_shiftLeft]
          by_cases hi : i < s
          · simp [hi]
          · rw [ih (i - s) (by omega)]
        have hmixed := congrArg (BitVec.getLsbD · i) h
        simp only [BitVec.getLsbD_xor, BitVec.getLsbD_and, hshifted] at hmixed
        exact Bool.xor_left_inj.mp hmixed
  exact BitVec.eq_of_getLsbD_eq fun i _ => hbits i

end MyTestFiles.Lib
