import MyTestFiles.Lib.Bytes
import MyTestFiles.Lib.Loop

/-!
# `MyTestFiles.Lib.Frames`: length-prefixed frames in a buffer

A frame starts with a header that holds its length, and the next frame starts at a multiple of
`a` bytes behind it. `walkBody` is the usual loop over the frames of a buffer: it stops where
the bytes left cannot hold a frame. `Walk` says which frames such a loop meets, whatever the
bytes are, and `walk_eq` that the loop visits these frames and no others.

`Layout buf p fs e` says that the frames `fs` stand in the buffer from `p` to `e`. A walk over
a layout meets its frames and leaves nothing over (`Layout.walk`), and a frame stored behind
the last one makes a longer layout (`Layout.concat`).

The layout of a buffer is given from the outside, while a walk decides at each frame whether to go
on. `frameOk` is that decision. It has three results: the length cannot be read at all, the rest
is no frame, or it is a frame of a certain length.

A buffer of arbitrary bytes has a walk too, so a statement about a parser on any input is one
about `Walk`, and a statement about what a builder made is one about `Layout`.
-/

set_option autoImplicit false

namespace MyTestFiles.Lib

/-- The least multiple of `a` that is not below `n`. -/
def alignUp (a n : Nat) : Nat := (n + (a - 1)) / a * a

/-- Aligning a number makes it no smaller. -/
theorem le_alignUp {a : Nat} (ha : 0 < a) (n : Nat) : n ≤ alignUp a n := by
  have hmod := Nat.mod_lt (n + (a - 1)) ha
  have hdiv := Nat.div_add_mod' (n + (a - 1)) a
  unfold alignUp
  omega

/-- Aligning a number adds less than a unit. -/
theorem alignUp_lt {a : Nat} (ha : 0 < a) (n : Nat) : alignUp a n < n + a := by
  have hdiv := Nat.div_mul_le_self (n + (a - 1)) a
  unfold alignUp
  omega

/-- An aligned number stays. -/
theorem alignUp_of_dvd {a n : Nat} (ha : 0 < a) (h : a ∣ n) : alignUp a n = n := by
  obtain ⟨k, rfl⟩ := h
  have hdiv : (a * k + (a - 1)) / a = k := by
    rw [Nat.mul_add_div ha, Nat.div_eq_of_lt (by omega), Nat.add_zero]
  rw [alignUp, hdiv, Nat.mul_comm]

/-- The result is aligned. -/
theorem dvd_alignUp (a n : Nat) : a ∣ alignUp a n := Nat.dvd_mul_left ..

/-! ### The loop over the frames -/

section Walk
variable {σ ρ : Type} (hdr : Nat) (lengthAt : Nat → Option Nat) (stride : Nat → Nat)

/-- The length of the frame at `p`, where the `len` bytes left hold one. The length is not
read where they are too few for a header. -/
def frameOk (p : Nat) (len : Int) : Option (Option Nat) :=
  if len < hdr then some none
  else do
    let n ← lengthAt p
    some (if hdr ≤ n ∧ (n : Int) ≤ len then some n else none)

/-- `while (OK(p, len)) { visit(p); p = NEXT(p, len); }`. A visit may leave the loop with a
result. -/
def walkBody (visit : σ → Nat → Option (Except ρ σ)) :
    σ × Nat × Int → Option (Pass (σ × Nat × Int) (Except ρ (σ × Nat × Int)))
  | (s, p, len) => do
      match ← frameOk hdr lengthAt p len with
      | none => some (.done (.ok (s, p, len)))
      | some n =>
          match ← visit s p with
          | .error r => some (.done (.error r))
          | .ok s => some (.again (s, p + stride n, len - stride n))

/-- The frames from `p` on, as places and lengths, in `len` bytes, with the place and the
number of bytes that are left. -/
inductive Walk : Nat → Int → List (Nat × Nat) → Nat → Int → Prop where
  | stop {p : Nat} {len : Int} (h : frameOk hdr lengthAt p len = some none) : Walk p len [] p len
  | next {p n q : Nat} {len left : Int} {fs : List (Nat × Nat)}
      (h : frameOk hdr lengthAt p len = some (some n))
      (hrest : Walk (p + stride n) (len - stride n) fs q left) : Walk p len ((p, n) :: fs) q left

/-- The visits of a list of frames, one after the other. -/
def visits (visit : σ → Nat → Option (Except ρ σ)) : σ → List (Nat × Nat) → Option (Except ρ σ)
  | s, [] => some (.ok s)
  | s, f :: fs => do
      match ← visit s f.1 with
      | .error r => some (.error r)
      | .ok s => visits visit s fs

variable {hdr lengthAt stride} {p q : Nat} {len left : Int} {fs : List (Nat × Nat)}

/-- A frame that passes the test has its header and is within the bytes left. -/
theorem frameOk_eq_some_some {n : Nat} (h : frameOk hdr lengthAt p len = some (some n)) :
    lengthAt p = some n ∧ hdr ≤ n ∧ (n : Int) ≤ len := by
  unfold frameOk at h
  split at h
  · cases h
  · obtain ⟨m, hm, heq⟩ := Option.bind_eq_some_iff.mp h
    split at heq
    · next hok =>
        cases heq
        exact ⟨hm, hok⟩
    · cases heq

/-- The test passes a frame with its header within the bytes left. -/
theorem frameOk_of_length {n : Nat} (h : lengthAt p = some n) (hn : hdr ≤ n)
    (hlen : (n : Int) ≤ len) : frameOk hdr lengthAt p len = some (some n) := by
  have hhdr : ¬len < hdr := by omega
  simp [frameOk, hhdr, h, hn, hlen]

/-- The loop visits the frames of the walk and ends where it ends. -/
theorem walk_eq (visit : σ → Nat → Option (Except ρ σ))
    (h : Walk hdr lengthAt stride p len fs q left) (s : σ) {fuel : Nat} (hfuel : fs.length < fuel) :
    loop (walkBody hdr lengthAt stride visit) fuel (s, p, len) =
      (visits visit s fs).map fun r => r.map fun s => (s, q, left) := by
  obtain ⟨fuel, rfl⟩ : ∃ more, fuel = more + 1 := ⟨fuel - 1, by omega⟩
  -- The induction is on the walk, one frame for each pass of the loop.
  induction h generalizing s fuel with
  | @stop p len h =>
      have hpass : walkBody hdr lengthAt stride visit (s, p, len) =
          some (.done (.ok (s, p, len))) := by simp [walkBody, h]
      rw [loop_of_done hpass]
      rfl
  | @next p n q len left fs h hrest ih =>
      obtain ⟨fuel, rfl⟩ : ∃ more, fuel = more + 1 :=
        ⟨fuel - 1, by simp only [List.length_cons] at hfuel; omega⟩
      cases hvisit : visit s p with
      | none => simp [loop, walkBody, h, visits, hvisit]
      | some r =>
          cases r with
          | error r =>
              have hpass : walkBody hdr lengthAt stride visit (s, p, len) =
                  some (.done (.error r)) := by simp [walkBody, h, hvisit]
              rw [loop_of_done hpass]
              simp [visits, hvisit, Except.map]
          | ok s' =>
              have hpass : walkBody hdr lengthAt stride visit (s, p, len) =
                  some (.again (s', p + stride n, len - stride n)) := by
                simp [walkBody, h, hvisit]
              rw [loop_of_again hpass, ih s' fuel (by simp only [List.length_cons] at hfuel; omega)]
              simp [visits, hvisit]

/-- Every frame of a walk lies within the bytes that the walk is over. -/
theorem Walk.mem_bounds (h : Walk hdr lengthAt stride p len fs q left)
    (hstride : ∀ n, n ≤ stride n) {f : Nat × Nat} (hf : f ∈ fs) :
    lengthAt f.1 = some f.2 ∧ hdr ≤ f.2 ∧ p ≤ f.1 ∧ (f.1 + f.2 : Int) ≤ p + len := by
  induction h with
  | stop _ => simp at hf
  | @next p n q len left fs hok hrest ih =>
      obtain ⟨hlength, hhdr, hle⟩ := frameOk_eq_some_some hok
      rcases List.mem_cons.mp hf with rfl | hf
      · exact ⟨hlength, hhdr, le_rfl, by push_cast; omega⟩
      · obtain ⟨hlength', hhdr', hge, hbound⟩ := ih hf
        have hn := hstride n
        exact ⟨hlength', hhdr', by omega, by push_cast at hbound ⊢; omega⟩

/-- A walk ends where its bytes end, but for what is left. -/
theorem Walk.add_left (h : Walk hdr lengthAt stride p len fs q left) :
    (q : Int) + left = p + len := by
  induction h with
  | stop _ => rfl
  | next _ _ ih =>
      rw [ih]
      push_cast
      omega

/-- Every frame takes a byte at least. -/
theorem Walk.length_le (h : Walk hdr lengthAt stride p len fs q left) (hhdr : 0 < hdr)
    (hstride : ∀ n, n ≤ stride n) : fs.length ≤ len.toNat := by
  induction h with
  | stop _ => exact Nat.zero_le _
  | @next p n q len left fs hok _ ih =>
      obtain ⟨-, hn, hle⟩ := frameOk_eq_some_some hok
      have hmore := hstride n
      rw [List.length_cons]
      omega

/-- There is a walk over every stretch of bytes in which lengths can be read. -/
theorem exists_walk (hhdr : 0 < hdr) (hstride : ∀ n, n ≤ stride n) (p : Nat) (len : Int)
    (hread : ∀ q, p ≤ q → (q : Int) + hdr ≤ p + len → (lengthAt q).isSome) :
    ∃ fs q left, Walk hdr lengthAt stride p len fs q left := by
  induction hk : len.toNat using Nat.strong_induction_on generalizing p len with
  | _ k ih =>
      by_cases hlen : len < hdr
      · exact ⟨[], p, len, .stop (by simp [frameOk, hlen])⟩
      · obtain ⟨n, hn⟩ := Option.isSome_iff_exists.mp (hread p le_rfl (by omega))
        by_cases hok : hdr ≤ n ∧ (n : Int) ≤ len
        · have hle := hstride n
          obtain ⟨fs, q, left, hwalk⟩ := ih (len - stride n).toNat (by omega)
            (p + stride n) (len - stride n) (fun q hq hbound => hread q (by omega) (by
              push_cast at hbound
              omega)) rfl
          exact ⟨(p, n) :: fs, q, left, .next (frameOk_of_length hn hok.1 hok.2) hwalk⟩
        · exact ⟨[], p, len, .stop (by simp [frameOk, hlen, hn, hok])⟩

end Walk

/-! ### Frames that stand in a buffer -/

section Layout
variable {hdr k a : Nat} {buf buf' : List UInt8} {p q e : Nat} {f : List UInt8}
  {fs gs : List (List UInt8)}

/-- A header of `hdr` bytes that starts with the length of the whole, in `k` bytes. -/
structure IsFrame (hdr k : Nat) (f : List UInt8) : Prop where
  header : hdr ≤ f.length
  length : ofLE k f = some f.length

/-- A frame is not empty, since it has its header. -/
theorem IsFrame.ne_nil (h : IsFrame hdr k f) (hhdr : 0 < hdr) : f ≠ [] :=
  List.ne_nil_of_length_pos (lt_of_lt_of_le hhdr h.header)

/-- The frames stand in the buffer from `p` to `e`. -/
inductive Layout (a : Nat) (buf : List UInt8) : Nat → List (List UInt8) → Nat → Prop where
  | nil (p : Nat) : Layout a buf p [] p
  | cons {p e : Nat} {f : List UInt8} {fs : List (List UInt8)} (hf : Holds buf p f)
      (hrest : Layout a buf (p + alignUp a f.length) fs e) : Layout a buf p (f :: fs) e

/-- The frames from `p` on, each with its place. -/
def placed (a : Nat) : Nat → List (List UInt8) → List (Nat × List UInt8)
  | _, [] => []
  | p, f :: fs => (p, f) :: placed a (p + alignUp a f.length) fs

/-- A layout goes forward. -/
theorem Layout.le (h : Layout a buf p fs e) : p ≤ e := by
  induction h with
  | nil p => exact le_rfl
  | cons _ _ ih => omega

/-- A walk over the frames of a layout meets them and leaves nothing. -/
theorem Layout.walk (h : Layout a buf p fs e) (ha : 0 < a) (hhdr : 0 < hdr)
    (hframe : ∀ f ∈ fs, IsFrame hdr k f) :
    Walk hdr (loadLE k buf) (alignUp a) p (e - p : Int)
      ((placed a p fs).map fun f => (f.1, f.2.length)) e 0 := by
  induction h with
  | nil p =>
      have hzero : ((p : Int) - p) = 0 := by omega
      rw [hzero]
      exact .stop (by simp [frameOk, hhdr])
  | @cons p e f fs hf hrest ih =>
      have hhead := hframe f (by simp)
      have hle := hrest.le
      have halign := le_alignUp ha f.length
      have hfits : (f.length : Int) ≤ e - p := by omega
      refine .next (frameOk_of_length (hf.loadLE hhead.length) hhead.header hfits) ?_
      have hlen : (e - p : Int) - (alignUp a f.length : Nat) =
          (e - (p + alignUp a f.length : Nat) : Int) := by
        push_cast
        omega
      rw [hlen]
      exact ih fun g hg => hframe g (by simp [hg])

/-- Two layouts that meet make one. -/
theorem Layout.append (h : Layout a buf p fs q) (h' : Layout a buf q gs e) :
    Layout a buf p (fs ++ gs) e := by
  induction h with
  | nil p => exact h'
  | cons hf _ ih => exact .cons hf (ih h')

/-- One frame more. -/
theorem Layout.concat (h : Layout a buf p fs e) (hf : Holds buf e f) :
    Layout a buf p (fs ++ [f]) (e + alignUp a f.length) := h.append (.cons hf (.nil _))

/-- A layout depends on its own bytes. -/
theorem Layout.congr (h : Layout a buf p fs e) (ha : 0 < a)
    (hsame : ∀ q f, p ≤ q → q + f.length ≤ e → Holds buf q f → Holds buf' q f) :
    Layout a buf' p fs e := by
  induction h with
  | nil p => exact .nil p
  | @cons p e f fs hf hrest ih =>
      have hle := hrest.le
      have halign := le_alignUp ha f.length
      exact .cons (hsame p f le_rfl (by omega) hf) (ih fun q g hq hbound => hsame q g (by omega)
        hbound)

/-- Every frame takes a byte at least. -/
theorem Layout.length_le (h : Layout a buf p fs e) (ha : 0 < a) (hne : ∀ f ∈ fs, f ≠ []) :
    fs.length ≤ buf.length - p := by
  induction h with
  | nil p => exact Nat.zero_le _
  | @cons p e f fs hf _ ih =>
      have hle := hf.length_le (hne f (by simp))
      have hpos := List.length_pos_of_ne_nil (hne f (by simp))
      have halign := le_alignUp ha f.length
      have hrest := ih fun g hg => hne g (by simp [hg])
      rw [List.length_cons]
      omega

/-- A layout stays when the buffer is extended. -/
theorem Layout.append_right (h : Layout a buf p fs e) (tail : List UInt8) :
    Layout a (buf ++ tail) p fs e := by
  induction h with
  | nil p => exact .nil p
  | cons hf _ ih => exact .cons (hf.append_right tail) ih

/-- Every frame of a layout is held at its place. -/
theorem Layout.holds_of_mem (h : Layout a buf p fs e) {x : Nat × List UInt8}
    (hx : x ∈ placed a p fs) : Holds buf x.1 x.2 := by
  induction h with
  | nil p => simp [placed] at hx
  | cons hf _ ih =>
      rcases List.mem_cons.mp hx with rfl | hx
      · exact hf
      · exact ih hx

/-- The frames that were placed, without their places. -/
theorem map_snd_placed (a p : Nat) (fs : List (List UInt8)) :
    (placed a p fs).map Prod.snd = fs := by
  induction fs generalizing p with
  | nil => rfl
  | cons f fs ih => simp [placed, ih]

end Layout

end MyTestFiles.Lib
