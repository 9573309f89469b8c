import MyTestFiles.Proofs.DList.Coherence

/-!
# `MyTestFiles.Proofs.DList.Move`: `moveList` leaves the source behind

`moveList` links the nodes of the source into the ring of the destination (`isCycle_moveList`),
but not the sentinel of the source, which still points at them. `moveList_iff` says when the
lists are afterwards what they should be (`Moved`): when there was nothing to move.

After a move of at least one node the source still leads into the destination, so a walk over it
does not come back to its own sentinel, and the next operation on it works on nodes of the other
list. The condition of `moveList_iff` is therefore that the source is empty.

* `movedSeq` is what a move is for, on sequences: the destination has the nodes of the source
  behind its own, and the source is empty.
* The destination is right in every case. `isCycle_moveList` shows its ring to be a cycle through
  its old nodes and the moved ones, with both directions of the pointers.
* `not_isEmpty_moveList` is the defect: `isEmpty` of the source is false after a move. From it the
  second half of `Moved` fails.
* `not_alwaysMoved` is a run of two calls, from the constructors on.
-/

set_option autoImplicit false

namespace MyTestFiles.Proofs.DList

open MyTestFiles.Lib
open MyTestFiles.DList

section Move
variable {w : Nat} {objects : Objects (Addr w) null} {mem : Mem w} {seq : Addr w → List (Addr w)}
  {list source : Addr w} {fuel : Nat}

/-- The sequences with the nodes of the source at the end of `list`. -/
def movedSeq (seq : Addr w → List (Addr w)) (list source : Addr w) : Addr w → List (Addr w) :=
  Function.update (Function.update seq list (seq list ++ seq source)) source []

/-- The memory after a move: `list` has the nodes of the source at its end, seen from both
sides; the source is empty, and nothing is visited on it; each node is on one list; and later
operations work on the two lists as on two sequences. -/
structure Moved (nodeOffset : Addr w) (objects : Objects (Addr w) null) (fuel : Nat)
    (seq : Addr w → List (Addr w)) (list source : Addr w) (mem : Mem w) : Prop where
  forward : follow mem.next list fuel (mem.next list) = some (seq list ++ seq source)
  backward : follow mem.prev list fuel (mem.prev list) = some (seq list ++ seq source).reverse
  sourceEmpty : isEmpty mem source = true
  noMember : ∀ t, isMember nodeOffset fuel mem source t = some false
  noVisit : ∀ (κ : Type) (f : Addr w → κ → Int × κ) (context : κ),
    foreach nodeOffset fuel mem source f context = some (0, context)
  oneList : ∀ n, OnSome objects seq n → ∃! s, s ∈ objects.heads ∧
    ∃ xs, follow mem.next s fuel (mem.next s) = some xs ∧ n ∈ xs
  later : ∀ (ops : List (DListOp w)) (seq' : Addr w → List (Addr w))
    (outs : List (Option (Addr w))),
    run (seqStep nodeOffset objects) (movedSeq seq list source) ops = some (seq', outs) →
    ∃ mem', run (dlistStep nodeOffset fuel) mem ops = some (mem', outs) ∧
      ∀ s ∈ objects.heads, follow mem'.next s fuel (mem'.next s) = some (seq' s) ∧
        follow mem'.prev s fuel (mem'.prev s) = some (seq' s).reverse

/-- The steps of `moveList`, on a source that is not empty. -/
theorem moveList_eq_join (h : Coherent objects mem seq) (hs : source ∈ objects.heads)
    (hne : seq source ≠ []) :
    moveList mem list source
      = mem.join list (mem.prev list) (mem.next source) (mem.prev source) := by
  have hfirst := next_list_eq h hs
  obtain ⟨y, rest, hseq⟩ := List.exists_cons_of_ne_nil hne
  rw [hseq, List.headD_cons] at hfirst
  have hy : y ≠ source := ne_list_of_mem h hs (by rw [hseq]; simp)
  have hhead : getHeadNode mem source ≠ endOfList source := by
    rw [getHeadNode, hfirst]
    exact hy
  rw [moveList, if_pos hhead]
  ext c <;> simp [Links.join, getHeadNode, getTailNode]

/-- A move from an empty list changes nothing. -/
theorem moveList_of_empty (h : Coherent objects mem seq) (hs : source ∈ objects.heads)
    (hempty : seq source = []) : moveList mem list source = mem := by
  have hfirst := next_list_eq h hs
  rw [hempty, List.headD_nil] at hfirst
  rw [moveList, if_neg]
  simpa [getHeadNode, endOfList] using hfirst

/-- The last node of a cycle, seen from its sentinel. -/
theorem cycle_eq_concat_prev (h : Coherent objects mem seq) (hs : list ∈ objects.heads) :
    ∃ front, list :: seq list = front ++ [mem.prev list] := by
  obtain ⟨a, b, hgap⟩ := exists_gap list (seq list) []
  have hlink := linked_of_gap h hs (List.append_nil _).symm hgap
  have hb : b = list := gap_tail hgap
  obtain ⟨front, -, hfront, -⟩ := hgap
  rw [hb] at hlink
  exact ⟨front, by rw [hlink.2, hfront]⟩

/-- The last node of a list that is not empty. -/
theorem exists_concat_prev (h : Coherent objects mem seq) (hs : list ∈ objects.heads)
    (hne : seq list ≠ []) : ∃ mid, seq list = mid ++ [mem.prev list] := by
  obtain ⟨front, hfront⟩ := cycle_eq_concat_prev h hs
  cases front with
  | nil =>
      rw [List.nil_append, List.cons.injEq] at hfront
      exact absurd hfront.2 hne
  | cons c mid =>
      rw [List.cons_append, List.cons.injEq] at hfront
      exact ⟨mid, hfront.2⟩

/-- The destination has the nodes of the source at its end. -/
theorem isCycle_moveList (h : Coherent objects mem seq) (hlist : list ∈ objects.heads)
    (hsource : source ∈ objects.heads) (hdiff : list ≠ source) :
    IsCycle (moveList mem list source) list (seq list ++ seq source) := by
  by_cases hempty : seq source = []
  · rw [moveList_of_empty h hsource hempty, hempty, List.append_nil]
    exact h.cycle list hlist
  · obtain ⟨front, hfront⟩ := cycle_eq_concat_prev h hlist
    obtain ⟨mid, hmid⟩ := exists_concat_prev h hsource hempty
    have hfirst := next_list_eq h hsource
    obtain ⟨y, rest, hseq⟩ := List.exists_cons_of_ne_nil hempty
    rw [hseq, List.headD_cons] at hfirst
    rw [moveList_eq_join h hsource hempty, hfirst]
    refine (h.cycle list hlist).join (h.cycle source hsource) ?_ hfront hseq hmid
    intro c hc hmem
    exact h.not_mem_cycle hsource hlist hdiff hc (List.mem_cons_of_mem source hmem)

/-- A move takes nothing where the source is empty: the sequences are as they were. -/
theorem movedSeq_of_empty (hempty : seq source = []) : movedSeq seq list source = seq := by
  rw [movedSeq, hempty, List.append_nil, Function.update_eq_self]
  rw [← hempty, Function.update_eq_self]

/-- On lists without nodes to move the claim of a move holds. -/
theorem moved_of_empty (h : Coherent objects mem seq) (nodeOffset : Addr w)
    (hlist : list ∈ objects.heads) (hsource : source ∈ objects.heads)
    (hfuel : objects.nodes.length < fuel) (hempty : seq source = []) :
    Moved nodeOffset objects fuel seq list source mem := by
  -- a walk meets the sequence of the list
  have hseq : ∀ s ∈ objects.heads, ∀ xs,
      follow mem.next s fuel (mem.next s) = some xs ↔ xs = seq s := by
    intro s hs xs
    rw [(coherent_follow h hs hfuel).1, Option.some.injEq, eq_comm]
  refine ⟨?_, ?_, (coherent_isEmpty h hsource).mpr hempty, ?_, ?_, ?_, ?_⟩
  · rw [hempty, List.append_nil]
    exact (coherent_follow h hlist hfuel).1
  · rw [hempty, List.append_nil]
    exact (coherent_follow h hlist hfuel).2
  · intro t
    rw [(coherent_isMember h hsource hfuel nodeOffset t).1, hempty]
    simp
  · intro κ f context
    rw [(coherent_foreach h hsource hfuel nodeOffset f context).1, hempty]
    rfl
  · rintro n ⟨s, hs, hn⟩
    refine ⟨s, ⟨hs, seq s, (hseq s hs _).mpr rfl, hn⟩, ?_⟩
    rintro t ⟨ht, xs, hxs, hmem⟩
    rw [hseq t ht] at hxs
    subst hxs
    -- no node is on two lists
    by_contra hts
    exact h.apart t ht s hs hts hmem hn
  · intro ops seq' outs hrun
    rw [movedSeq_of_empty hempty] at hrun
    obtain ⟨mem', hrun', h'⟩ := (dlist_simulates nodeOffset hfuel).run h hrun
    exact ⟨mem', hrun', fun s hs => coherent_follow h' hs hfuel⟩

/-- After a move the sentinel of the source still points at its first node. -/
theorem not_isEmpty_moveList (h : Coherent objects mem seq) (hlist : list ∈ objects.heads)
    (hsource : source ∈ objects.heads) (hdiff : list ≠ source) (hne : seq source ≠ []) :
    isEmpty (moveList mem list source) source = false := by
  have hbefore : isEmpty mem source = false := by
    rw [← Bool.not_eq_true, coherent_isEmpty h hsource]
    exact hne
  obtain ⟨front, hfront⟩ := cycle_eq_concat_prev h hlist
  have hlast : mem.prev list ∈ list :: seq list := by rw [hfront]; simp
  have hprev : source ≠ mem.prev list := by
    rintro heq
    exact h.not_mem_cycle hsource hlist hdiff hlast (by rw [← heq]; simp)
  have hself : source ≠ mem.prev source := by
    obtain ⟨mid, hmid⟩ := exists_concat_prev h hsource hne
    exact (ne_list_of_mem h hsource (by rw [hmid]; simp)).symm
  simp only [isEmpty] at hbefore ⊢
  rw [moveList_eq_join h hsource hne]
  simpa [Links.join, hprev, hself] using hbefore

/-- After a move the destination is as it should be. All of `Moved` holds exactly where the
source was empty. -/
theorem moveList_iff (h : Coherent objects mem seq) (nodeOffset : Addr w)
    (hlist : list ∈ objects.heads) (hsource : source ∈ objects.heads) (hdiff : list ≠ source)
    (hfuel : objects.nodes.length < fuel) :
    (follow (moveList mem list source).next list fuel ((moveList mem list source).next list)
        = some (seq list ++ seq source) ∧
      follow (moveList mem list source).prev list fuel ((moveList mem list source).prev list)
        = some (seq list ++ seq source).reverse) ∧
    (Moved nodeOffset objects fuel seq list source (moveList mem list source) ↔
      seq source = []) := by
  refine ⟨?_, ?_, ?_⟩
  · have hcycle := isCycle_moveList h hlist hsource hdiff
    have hlen : (seq list ++ seq source).length < fuel := by
      refine lt_of_le_of_lt ?_ hfuel
      refine (List.subperm_of_subset (List.nodup_cons.mp hcycle.nodup).2 ?_).length_le
      intro c hc
      exact (List.mem_append.mp hc).elim (h.member list hlist c) (h.member source hsource c)
    exact ⟨hcycle.visits_next.follow_eq hlen,
      hcycle.visits_prev.follow_eq (by rwa [List.length_reverse])⟩
  · intro hmoved
    by_contra hne
    -- the sentinel of the source still points to the nodes that were moved
    have hempty := hmoved.sourceEmpty
    rw [not_isEmpty_moveList h hlist hsource hdiff hne] at hempty
    cases hempty
  · intro hempty
    rw [moveList_of_empty h hsource hempty]
    exact moved_of_empty h nodeOffset hlist hsource hfuel hempty

end Move

/-! ### Two lists -/

section TwoLists

/-- Lists at 8 and 16, and two nodes. -/
def twoLists : Objects (Addr 16) null where
  heads := [8, 16]
  nodes := [24, 32]
  apart := by simp [List.Disjoint]
  null_not_head := by decide
  null_not_node := by decide

/-- A move from the empty list at 16. -/
theorem moveList_iff_twoLists :
    Moved 4 twoLists 3 (fun _ => []) 8 16 (moveList (constructAll twoLists ⟨id, id⟩) 8 16) :=
  (moveList_iff (coherent_constructAll twoLists ⟨id, id⟩) 4 (by decide) (by decide) (by decide)
    (by decide : 2 < 3)).2.mpr rfl

/-- Every move does what it should. -/
def AlwaysMoved : Prop :=
  ∀ (w fuel : Nat) (objects : Objects (Addr w) null) (mem : Mem w) (seq : Addr w → List (Addr w))
    (nodeOffset list source : Addr w), Coherent objects mem seq → list ∈ objects.heads →
    source ∈ objects.heads → list ≠ source → objects.nodes.length < fuel →
    Moved nodeOffset objects fuel seq list source (moveList mem list source)

/-- One node is added to the list at 16, and that list is moved to the end of the one at 8. -/
theorem not_alwaysMoved : ¬ AlwaysMoved := by
  intro h
  have hco := coherent_insertAfterNode_head (coherent_constructAll twoLists ⟨id, id⟩)
    (by decide : (16 : Addr 16) ∈ twoLists.heads) (n := 24) ⟨by decide, by decide⟩
  have hmoved := h 16 3 twoLists _ _ 4 8 16 hco (by decide) (by decide) (by decide) (by decide)
  have hempty := hmoved.sourceEmpty
  revert hempty
  decide

end TwoLists

end MyTestFiles.Proofs.DList
