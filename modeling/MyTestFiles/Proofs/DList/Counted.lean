import MyTestFiles.DList.Counted
import MyTestFiles.Proofs.DList.Swap

/-!
# `MyTestFiles.Proofs.DList.Counted`: when `m_nodeCount` is the number of nodes

A step keeps the pointers coherent; `counted_simulates` adds that the four
operations of `CountedDList` keep the count, and so do the inherited ones that leave the number
of nodes as it is (`KeepsCount`).

`nodeCount_eq` is the result over every run of such steps, and `not_alwaysCounted` shows what
the others do.

The count is a word of 32 bits and wraps, so what is kept is that it is the number of nodes modulo
`2 ^ 32`. The inherited operations do not know of the count, so those that add or remove a node
leave it wrong.

* The simulation is that of the pointers (`Proofs.DList.Coherence`) with one clause more for the
  count of each list. `Counted.update` and `Counted.congr` are the two ways in which a step may
  treat the sequences.
* `remove` decrements the count of the list that it is called on, so a step is permitted only for
  a node of that list.
* `not_alwaysCounted` inserts a node with an inherited operation, and the count stays one behind.
-/

set_option autoImplicit false

namespace MyTestFiles.Proofs.DList

open MyTestFiles.Lib
open MyTestFiles.DList

/-! ### The counter -/

section Count
variable {w : Nat} {objects : Objects (Addr w) null} {nodeOffset : Addr w}

/-- A step that the counter follows: nothing is inserted next to a node, and only an empty list
is emptied. -/
def KeepsCount (seq : Addr w → List (Addr w)) : CountedOp w → Prop
  | .insertAfter _ _ | .insertBefore _ _ => False
  | .removeAll list => seq list = []
  | .addHead _ _ | .addTail _ _ | .removeHead _ | .remove _ _ | .swap _ _ => True

instance (seq : Addr w → List (Addr w)) (op : CountedOp w) : Decidable (KeepsCount seq op) :=
  match op with
  | .insertAfter _ _ | .insertBefore _ _ => inferInstanceAs (Decidable False)
  | .removeAll list => inferInstanceAs (Decidable (seq list = []))
  | .addHead _ _ | .addTail _ _ | .removeHead _ | .remove _ _ | .swap _ _ =>
      inferInstanceAs (Decidable True)

/-- The permitted operations, as far as the counter follows. -/
def keepingStep (nodeOffset : Addr w) (objects : Objects (Addr w) null)
    (seq : Addr w → List (Addr w)) (op : CountedOp w) :
    Option ((Addr w → List (Addr w)) × Option (Addr w)) :=
  if KeepsCount seq op then countedSeqStep nodeOffset objects seq op else none

/-- The counter of each list is the number of its nodes. -/
def Counted (objects : Objects (Addr w) null) (mem : CountedMem w)
    (seq : Addr w → List (Addr w)) : Prop :=
  ∀ list ∈ objects.heads, mem.nodeCount list = BitVec.ofNat 32 (seq list).length

/-- The memory of counted lists. -/
def CountedCoherent (objects : Objects (Addr w) null) (mem : CountedMem w)
    (seq : Addr w → List (Addr w)) : Prop :=
  Coherent objects mem.links seq ∧ Counted objects mem seq

variable {mem : CountedMem w} {seq seq' : Addr w → List (Addr w)}

/-- One sequence changes, and the counter of its list. -/
theorem Counted.update (h : Counted objects mem seq) {links : Mem w} {count : BitVec 32}
    {list : Addr w} {xs : List (Addr w)} (hcount : count = BitVec.ofNat 32 xs.length) :
    Counted objects ⟨links, Function.update mem.nodeCount list count⟩
      (Function.update seq list xs) := by
  intro s hs
  by_cases hsl : s = list
  · subst hsl
    simp [hcount]
  · simp only [Function.update_of_ne hsl]
    exact h s hs

/-- No sequence changes its length. -/
theorem Counted.congr (h : Counted objects mem seq) {links : Mem w}
    (hlen : ∀ list ∈ objects.heads, (seq' list).length = (seq list).length) :
    Counted objects (mem.withLinks links) seq' := by
  intro s hs
  rw [hlen s hs]
  exact h s hs

/-- One more node, in the width of the count. -/
theorem length_add_one (n : Nat) : BitVec.ofNat 32 n + 1 = BitVec.ofNat 32 (n + 1) := by
  apply BitVec.eq_of_toNat_eq
  simp

/-- One node less. -/
theorem length_sub_one {n : Nat} : BitVec.ofNat 32 (n + 1) - 1 = BitVec.ofNat 32 n := by
  rw [← length_add_one, BitVec.add_sub_cancel]

/-- The removal of the first node. -/
theorem counted_removeHead (h : CountedCoherent objects mem seq) (nodeOffset : Addr w)
    {list : Addr w} (hs : list ∈ objects.heads) :
    (CountedDList.removeHead nodeOffset mem list).2
        = getObject nodeOffset ((seq list).headD list) ∧
      CountedCoherent objects (CountedDList.removeHead nodeOffset mem list).1
        (Function.update seq list (seq list).tail) := by
  obtain ⟨hco, hcount⟩ := h
  obtain ⟨hobject, hco'⟩ := coherent_removeHead hco nodeOffset hs
  -- the check for the null object sees an empty list only
  have hnull : getObject nodeOffset ((seq list).headD list) = nullObject nodeOffset list
      ↔ seq list = [] := by
    rw [nullObject, getObject_eq_iff, getNode_getObject]
    cases hseq : seq list with
    | nil => simp
    | cons x rest => simpa using ne_list_of_mem hco hs (by rw [hseq]; simp)
  simp only [CountedDList.removeHead, hobject]
  by_cases hempty : seq list = []
  · rw [if_neg (not_not.mpr (hnull.mpr hempty))]
    refine ⟨rfl, hco', hcount.congr ?_⟩
    intro s _
    rw [hempty, List.tail_nil, ← hempty, Function.update_eq_self]
  · rw [if_pos (mt hnull.mp hempty)]
    refine ⟨rfl, hco', hcount.update ?_⟩
    obtain ⟨x, rest, hseq⟩ := List.exists_cons_of_ne_nil hempty
    show mem.nodeCount list - 1 = _
    rw [hcount list hs, hseq, List.length_cons, length_sub_one, List.tail_cons]

/-- The removal of a member. -/
theorem counted_remove (h : CountedCoherent objects mem seq) {list t : Addr w}
    (hs : list ∈ objects.heads) (ht : getNode nodeOffset t ∈ seq list) :
    CountedCoherent objects (CountedDList.remove nodeOffset mem list t)
      fun s => (seq s).erase (getNode nodeOffset t) := by
  obtain ⟨hco, hcount⟩ := h
  have hon : OnSome objects seq (getNode nodeOffset t) := ⟨list, hs, ht⟩
  have hmark : mem.links.next (getNode nodeOffset t) ≠ null :=
    (hco.next_ne_null_iff (hco.member list hs _ ht)).mpr hon
  have herase := hco.map_eq_update hs ht fun xs hxs => List.erase_of_not_mem hxs
  have hco' := coherent_removeNode hco hon
  rw [herase] at hco' ⊢
  simp only [CountedDList.remove, if_pos hmark]
  refine ⟨hco', hcount.update ?_⟩
  have hpos := List.length_pos_of_mem ht
  have hlen : (seq list).length = ((seq list).erase (getNode nodeOffset t)).length + 1 := by
    rw [List.length_erase_of_mem ht]
    omega
  rw [hcount list hs, hlen, length_sub_one]

/-- The counter follows these steps. -/
theorem counted_simulates (nodeOffset : Addr w) {fuel : Nat}
    (hfuel : objects.nodes.length < fuel) :
    Simulates (countedStep nodeOffset fuel) (keepingStep nodeOffset objects)
      (CountedCoherent objects) := by
  intro mem seq h op seq' o hstep
  obtain ⟨hco, hcount⟩ := id h
  rw [keepingStep, Option.ite_none_right_eq_some] at hstep
  -- a step that keeps the counter right is a step of the sequences
  obtain ⟨hkeeps, hstep⟩ := hstep
  cases op with
  | addHead list t =>
      simp only [countedSeqStep, seqStep, Option.ite_none_right_eq_some] at hstep
      obtain ⟨⟨hs, hn⟩, hout⟩ := hstep
      cases hout
      refine ⟨_, rfl, coherent_insertAfterNode_head hco hs hn, hcount.update ?_⟩
      show mem.nodeCount list + 1 = _
      rw [hcount list hs, length_add_one, List.length_cons]
  | addTail list t =>
      simp only [countedSeqStep, seqStep, Option.ite_none_right_eq_some] at hstep
      obtain ⟨⟨hs, hn⟩, hout⟩ := hstep
      cases hout
      refine ⟨_, rfl, coherent_insertBeforeNode_head hco hs hn, hcount.update ?_⟩
      show mem.nodeCount list + 1 = _
      rw [hcount list hs, length_add_one, List.length_append, List.length_singleton]
  | removeHead list =>
      simp only [countedSeqStep, seqStep, Option.ite_none_right_eq_some] at hstep
      obtain ⟨hs, hout⟩ := hstep
      cases hout
      obtain ⟨hobject, hco'⟩ := counted_removeHead h nodeOffset hs
      refine ⟨(CountedDList.removeHead nodeOffset mem list).1, ?_, hco'⟩
      rw [← hobject]
      rfl
  | remove list t =>
      simp only [countedSeqStep, seqStep, Option.ite_none_right_eq_some] at hstep
      obtain ⟨⟨hs, ht⟩, -, hout⟩ := hstep
      cases hout
      exact ⟨_, rfl, counted_remove h hs ht⟩
  | insertAfter a t => exact absurd hkeeps id
  | insertBefore b t => exact absurd hkeeps id
  | removeAll list =>
      simp only [countedSeqStep, seqStep, Option.ite_none_right_eq_some] at hstep
      obtain ⟨hs, hout⟩ := hstep
      cases hout
      obtain ⟨links, hrun, hco'⟩ := coherent_removeAll hco hs hfuel
      refine ⟨mem.withLinks links, by simp [countedStep, hrun], hco', hcount.congr ?_⟩
      intro s _
      have hempty : seq list = [] := hkeeps
      rw [← hempty, Function.update_eq_self]
  | swap item1 item2 =>
      simp only [countedSeqStep, Option.ite_none_right_eq_some] at hstep
      obtain ⟨⟨list, hs, h₁, h₂⟩, hout⟩ := hstep
      cases hout
      refine ⟨_, rfl, ?_, hcount.congr fun s _ => List.length_map ..⟩
      show Coherent objects (swap nodeOffset mem.links item1 item2) _
      rw [swap_eq, map_swap_eq_update hco hs h₁ h₂]
      exact coherent_swapNodes hco hs h₁ h₂

/-- `m_nodeCount` is the number of nodes on its list after every run of steps that the counter
follows. -/
theorem nodeCount_eq (nodeOffset : Addr w) (links : Mem w) (ops : List (CountedOp w))
    {outs : List (Option (Addr w))}
    (hspec : run (keepingStep nodeOffset objects) (fun _ => []) ops = some (seq, outs)) {fuel : Nat}
    (hfuel : objects.nodes.length < fuel) (hsize : objects.nodes.length < 4294967296) :
    ∃ mem, run (countedStep nodeOffset fuel) (constructCounted objects links) ops
        = some (mem, outs) ∧
      ∀ list ∈ objects.heads,
        follow mem.links.next list fuel (mem.links.next list) = some (seq list) ∧
        (mem.nodeCount list).toNat = (seq list).length := by
  have hstart : CountedCoherent objects (constructCounted objects links) fun _ => [] :=
    ⟨coherent_constructAll objects links, fun _ _ => rfl⟩
  obtain ⟨mem, hrun, hco, hcount⟩ := (counted_simulates nodeOffset hfuel).run hstart hspec
  refine ⟨mem, hrun, ?_⟩
  intro list hs
  refine ⟨(coherent_follow hco hs hfuel).1, ?_⟩
  have hle := hco.length_le hs
  rw [hcount list hs, BitVec.toNat_ofNat, Nat.mod_eq_of_lt (by omega)]

/-- Two nodes are added, and one is removed again. -/
theorem nodeCount_eq_oneList :
    ∃ mem, run (countedStep 4 3) (constructCounted oneList ⟨id, id⟩)
        [.addHead 8 12, .addTail 8 20, .remove 8 12]
          = some (mem, [none, none, none]) ∧
      (mem.nodeCount 8).toNat = 1 := by
  have hspec : run (keepingStep 4 oneList) (fun _ => [])
      [.addHead 8 12, .addTail 8 20, .remove 8 12]
        = some (_, [none, none, none]) := rfl
  have hsize : oneList.nodes.length < 4294967296 := by simp [oneList]
  obtain ⟨mem, hrun, hcount⟩ := nodeCount_eq 4 ⟨id, id⟩ _ hspec (by decide : 2 < 3) hsize
  exact ⟨mem, hrun, (hcount 8 (by decide)).2⟩

/-- The counter is right after every run of permitted operations. -/
def AlwaysCounted : Prop :=
  ∀ (w fuel : Nat) (objects : Objects (Addr w) null) (nodeOffset : Addr w) (links : Mem w)
    (ops : List (CountedOp w)) (seq : Addr w → List (Addr w)) (outs : List (Option (Addr w)))
    (mem : CountedMem w), objects.nodes.length < fuel →
    run (countedSeqStep nodeOffset objects) (fun _ => []) ops = some (seq, outs) →
    run (countedStep nodeOffset fuel) (constructCounted objects links) ops = some (mem, outs) →
    ∀ list ∈ objects.heads, (mem.nodeCount list).toNat = (seq list).length

/-- Two nodes are on the list, one of them from `insertAfter`, and the count is 1. -/
theorem not_alwaysCounted : ¬ AlwaysCounted := by
  intro h
  have hspec : run (countedSeqStep 4 oneList) (fun _ => []) [.addHead 8 12, .insertAfter 12 20]
      = some (_, [none, none]) := rfl
  have hrun : run (countedStep 4 3) (constructCounted oneList ⟨id, id⟩)
      [.addHead 8 12, .insertAfter 12 20] = some (_, [none, none]) := rfl
  have hcount := h 16 3 oneList 4 ⟨id, id⟩ _ _ _ _ (by decide) hspec hrun 8 (by decide)
  have hnodes : (1 : Nat) = 2 := hcount
  cases hnodes

end Count

end MyTestFiles.Proofs.DList
