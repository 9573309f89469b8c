import MyTestFiles.DList.Operations

/-!
# `MyTestFiles.Proofs.DList.Coherence`: the pointers always spell the sequences

The two insertions of the source are `Links.splice` and its removal is `Links.unlink`, so
each operation keeps the memory `Coherent` with the sequences after the same operation
(`dlist_simulates`). `coherent_constructAll` starts a run. On a coherent memory the walks
of `foreach` and `isMember` visit the sequence and stop.

`dlist_coherent` is the result over every run of permitted operations.

The proofs follow the layers of the source.

* The node functions (`insertAfterNode`, `insertBeforeNode`, `removeNode`) write two or four
  pointers. They are the general operations on cycles, so their coherence is that of `Lib.Links`.
* The list functions reach a node through the sentinel. `coherent_insertAfterNode_head` and its
  sibling are insertions behind and before the sentinel, which are the two ends of a sequence.
* The loops (`removeAll`, `foreach`, `isMember`) walk a cycle. Their bound is the number of nodes,
  because a list holds a node at most once.

An operation on one list leaves the other lists alone, and the proof of that is in the sequences:
a node is on one list only, so an operation that touches two nodes and the new one touches the
cycle of that list.
-/

set_option autoImplicit false

namespace MyTestFiles.Proofs.DList

open MyTestFiles.Lib
open MyTestFiles.DList

section Pointers
variable {w : Nat} {mem : Mem w}

/-- The four stores of `insertAfter` put the node between `a` and its successor. -/
theorem insertAfterNode_eq_splice {a n b : Addr w} (h : mem.next a = b) :
    insertAfterNode mem a n = mem.splice a n b := by
  subst h
  ext c <;> simp [insertAfterNode, Links.splice]

/-- The four stores of `insertBefore` put the node between `b` and its predecessor. -/
theorem insertBeforeNode_eq_splice {a n b : Addr w} (h : mem.prev b = a) :
    insertBeforeNode mem b n = mem.splice a n b := by
  subst h
  ext c <;> simp [insertBeforeNode, Links.splice]

/-- The stores of `remove` take the node out of its cycle and clear its pointers. -/
theorem removeNode_eq_unlink (n : Addr w) : removeNode mem n = mem.unlink n null := by
  ext c <;> simp [removeNode, Links.unlink]

/-- The node within the object of a node is that node. -/
@[simp] theorem getNode_getObject (nodeOffset n : Addr w) :
    getNode nodeOffset (getObject nodeOffset n) = n := by
  simp [getNode, getObject]

/-- The object around the node of an object is that object. -/
@[simp] theorem getObject_getNode (nodeOffset t : Addr w) :
    getObject nodeOffset (getNode nodeOffset t) = t := by
  simp [getNode, getObject]

/-- An object and its node determine each other. -/
theorem getObject_eq_iff {nodeOffset n t : Addr w} :
    getObject nodeOffset n = t ↔ n = getNode nodeOffset t := by
  constructor
  · intro h
    rw [← h, getNode_getObject]
  · intro h
    rw [h, getObject_getNode]

end Pointers

/-! ### Construction -/

section Construct
variable {w : Nat} {objects : Objects (Addr w) null} {mem : Mem w}

/-- After all constructors of nodes have run, no node has a successor. -/
theorem next_foldl_constructNode (nodes : List (Addr w)) (mem : Mem w) {n : Addr w}
    (h : n ∈ nodes ∨ mem.next n = null) : (nodes.foldl constructNode mem).next n = null := by
  induction nodes generalizing mem with
  | nil =>
      rcases h with hmem | hnull
      · simp at hmem
      · exact hnull
  | cons m nodes ih =>
      apply ih
      by_cases hn : n = m
      · right
        simp [constructNode, hn]
      · rcases h with hmem | hnull
        · left
          exact (List.mem_cons.mp hmem).resolve_left hn
        · right
          simpa [constructNode, hn] using hnull

/-- The constructors of lists touch nothing but their own sentinels. -/
theorem foldl_construct_of_not_mem (heads : List (Addr w)) (mem : Mem w) {c : Addr w}
    (h : c ∉ heads) :
    (heads.foldl construct mem).next c = mem.next c ∧
      (heads.foldl construct mem).prev c = mem.prev c := by
  induction heads generalizing mem with
  | nil => exact ⟨rfl, rfl⟩
  | cons s heads ih =>
      rw [List.mem_cons, not_or] at h
      obtain ⟨hnext, hprev⟩ := ih (construct mem s) h.2
      show (heads.foldl construct (construct mem s)).next c = mem.next c ∧
        (heads.foldl construct (construct mem s)).prev c = mem.prev c
      rw [hnext, hprev]
      simp [construct, constructNode, h.1]

/-- After the constructors of lists have run, every sentinel points at itself. -/
theorem foldl_construct_of_mem (heads : List (Addr w)) (mem : Mem w) {s : Addr w}
    (h : s ∈ heads ∨ mem.next s = s ∧ mem.prev s = s) :
    (heads.foldl construct mem).next s = s ∧ (heads.foldl construct mem).prev s = s := by
  induction heads generalizing mem with
  | nil => exact h.resolve_left (by simp)
  | cons t heads ih =>
      apply ih
      by_cases hst : s = t
      · right
        simp [construct, hst]
      · rcases h with hmem | hself
        · left
          exact (List.mem_cons.mp hmem).resolve_left hst
        · right
          simpa [construct, constructNode, hst] using hself

/-- After the constructors, every list is empty and every node is on no list. -/
theorem coherent_constructAll (objects : Objects (Addr w) null) (mem : Mem w) :
    Coherent objects (constructAll objects mem) fun _ => [] where
  cycle := by
    intro s hs
    have hself := foldl_construct_of_mem objects.heads
      (objects.nodes.foldl constructNode mem) (Or.inl hs)
    refine ⟨by simp, ?_⟩
    show [s, s].IsChain (constructAll objects mem).Linked
    exact List.isChain_pair.mpr hself
  apart := by
    intro s _ t _ _
    exact List.disjoint_nil_left []
  member := by
    intro s _ n hn
    simp at hn
  off := by
    intro n hn _
    have hhead : n ∉ objects.heads := fun hs => objects.apart hs hn
    show (objects.heads.foldl construct (objects.nodes.foldl constructNode mem)).next n = null
    rw [(foldl_construct_of_not_mem _ _ hhead).1]
    exact next_foldl_constructNode _ _ (Or.inl hn)
  outside := by
    intro s _
    rfl

end Construct

/-! ### One operation -/

section Step
variable {w : Nat} {objects : Objects (Addr w) null} {mem : Mem w}
  {seq : Addr w → List (Addr w)}

/-- The first half of a list up to a member, and the rest. -/
theorem exists_split {l : Links (Addr w)} (h : Coherent objects l seq) {n : Addr w}
    (hn : OnSome objects seq n) :
    ∃ s ∈ objects.heads, n ∈ seq s ∧ ∃ pre post, seq s = pre ++ n :: post ∧ n ∉ pre := by
  obtain ⟨s, hs, hmem⟩ := hn
  obtain ⟨pre, post, hseq⟩ := List.append_of_mem hmem
  refine ⟨s, hs, hmem, pre, post, hseq, ?_⟩
  have hnodup := (List.nodup_cons.mp (h.cycle s hs).nodup).2
  rw [hseq, List.nodup_append'] at hnodup
  intro hpre
  exact hnodup.2.2 hpre (by simp)

/-- The pointers around a gap of a list. -/
theorem linked_of_gap (h : Coherent objects mem seq) {s a b : Addr w} (hs : s ∈ objects.heads)
    {pre post : List (Addr w)} (hseq : seq s = pre ++ post) (hgap : Gap s pre post a b) :
    mem.Linked a b := by
  have hcycle := h.cycle s hs
  rw [hseq] at hcycle
  exact hcycle.linked_of_gap hgap

/-- A node put into a list after the nodes `pre`: the last of them, or the sentinel, is the one
that it follows. -/
theorem coherent_insertAfterNode_at (h : Coherent objects mem seq) {list n : Addr w}
    (hs : list ∈ objects.heads) {pre post : List (Addr w)} (hseq : seq list = pre ++ post)
    (hn : Insertable objects seq n) :
    Coherent objects (insertAfterNode mem (pre.getLastD list) n)
      (Function.update seq list (pre ++ n :: post)) := by
  obtain ⟨a, b, hgap⟩ := exists_gap list pre post
  have hlink := linked_of_gap h hs hseq hgap
  rw [← gap_left hgap, insertAfterNode_eq_splice hlink.1]
  exact h.splice hs hseq hgap hn.1 hn.2

/-- An insertion behind the sentinel puts the node in front of the sequence. -/
theorem coherent_insertAfterNode_head (h : Coherent objects mem seq) {list n : Addr w}
    (hs : list ∈ objects.heads) (hn : Insertable objects seq n) :
    Coherent objects (insertAfterNode mem list n)
      (Function.update seq list (n :: seq list)) :=
  coherent_insertAfterNode_at h hs (List.nil_append _).symm hn

/-- An insertion before the sentinel puts the node at the end of the sequence. -/
theorem coherent_insertBeforeNode_head (h : Coherent objects mem seq) {list n : Addr w}
    (hs : list ∈ objects.heads) (hn : Insertable objects seq n) :
    Coherent objects (insertBeforeNode mem list n)
      (Function.update seq list (seq list ++ [n])) := by
  obtain ⟨a, b, hgap⟩ := exists_gap list (seq list) []
  have hb : b = list := gap_tail hgap
  subst hb
  have hseq : seq b = seq b ++ [] := (List.append_nil _).symm
  have hlink := linked_of_gap h hs hseq hgap
  rw [insertBeforeNode_eq_splice hlink.2]
  exact h.splice hs hseq hgap hn.1 hn.2

/-- An insertion behind a node of some list puts the new node behind it there. The other sequences
do not have the node, so `putAfter` leaves them alone. -/
theorem coherent_insertAfterNode (h : Coherent objects mem seq) {a n : Addr w}
    (ha : OnSome objects seq a) (hn : Insertable objects seq n) :
    Coherent objects (insertAfterNode mem a n) fun list => putAfter a n (seq list) := by
  obtain ⟨s, hs, hmem, pre, post, hseq, hpre⟩ := exists_split h ha
  have hput := h.map_eq_update hs hmem (fun xs hxs => putAfter_of_not_mem (n := n) hxs)
  rw [hput, hseq, putAfter_append hpre]
  -- the node goes right after `a`
  have hcut : seq s = (pre ++ [a]) ++ post := by simpa using hseq
  have hco := coherent_insertAfterNode_at h hs hcut hn
  rw [List.getLastD_concat] at hco
  simpa using hco

/-- An insertion before a node of some list puts the new node before it there. -/
theorem coherent_insertBeforeNode (h : Coherent objects mem seq) {b n : Addr w}
    (hb : OnSome objects seq b) (hn : Insertable objects seq n) :
    Coherent objects (insertBeforeNode mem b n) fun list => putBefore b n (seq list) := by
  obtain ⟨s, hs, hmem, pre, post, hseq, hpre⟩ := exists_split h hb
  have hput := h.map_eq_update hs hmem (fun xs hxs => putBefore_of_not_mem (n := n) hxs)
  rw [hput, hseq, putBefore_append hpre]
  -- the gap is right before `b`
  obtain ⟨a, b', hgap⟩ := exists_gap s pre (b :: post)
  have hbb : b' = b := gap_cons hgap
  subst hbb
  have hlink := linked_of_gap h hs hseq hgap
  rw [insertBeforeNode_eq_splice hlink.2]
  exact h.splice hs hseq hgap hn.1 hn.2

/-- A removal erases the node from the one sequence that has it. -/
theorem coherent_removeNode (h : Coherent objects mem seq) {n : Addr w}
    (hn : OnSome objects seq n) :
    Coherent objects (removeNode mem n) fun list => (seq list).erase n := by
  obtain ⟨s, hs, hmem, pre, post, hseq, hpre⟩ := exists_split h hn
  have herase := h.map_eq_update hs hmem (fun xs hxs => List.erase_of_not_mem hxs)
  rw [herase, hseq, List.erase_append_right _ hpre, List.erase_cons_head, removeNode_eq_unlink]
  exact h.unlink hs hseq

/-- The first node of a list, and the memory without it. -/
theorem coherent_removeNode_first (h : Coherent objects mem seq) {list x : Addr w}
    {rest : List (Addr w)} (hs : list ∈ objects.heads) (hseq : seq list = x :: rest) :
    Coherent objects (removeNode mem x) (Function.update seq list rest) := by
  have hcut : seq list = [] ++ x :: rest := hseq
  rw [removeNode_eq_unlink]
  exact h.unlink hs hcut

/-- The sentinel points at the first node of its sequence, or at itself where there is none. -/
theorem next_list_eq (h : Coherent objects mem seq) {list : Addr w}
    (hs : list ∈ objects.heads) : mem.next list = (seq list).headD list :=
  (h.cycle list hs).next_eq

/-- The node after the first one. -/
theorem next_first_eq (h : Coherent objects mem seq) {list x : Addr w} {rest : List (Addr w)}
    (hs : list ∈ objects.heads) (hseq : seq list = x :: rest) :
    mem.next x = rest.headD list := by
  have hvisits := (h.cycle list hs).visits_next
  rw [hseq] at hvisits
  exact hvisits.tail.start_eq

/-- A node of a list is not the sentinel of the list. -/
theorem ne_list_of_mem (h : Coherent objects mem seq) {list x : Addr w}
    (hs : list ∈ objects.heads) (hx : x ∈ seq list) : x ≠ list := by
  intro heq
  exact (List.nodup_cons.mp (h.cycle list hs).nodup).1 (heq ▸ hx)

/-- `removeHead` answers the object of the first node and drops that node. On an empty list it
answers the object of the sentinel, as the source does. -/
theorem coherent_removeHead (h : Coherent objects mem seq) (nodeOffset : Addr w)
    {list : Addr w} (hs : list ∈ objects.heads) :
    (removeHead nodeOffset mem list).2 = getObject nodeOffset ((seq list).headD list) ∧
      Coherent objects (removeHead nodeOffset mem list).1
        (Function.update seq list (seq list).tail) := by
  have hnext := next_list_eq h hs
  cases hseq : seq list with
  | nil =>
      rw [hseq, List.headD_nil] at hnext
      have hsame : Function.update seq list ([] : List (Addr w)).tail = seq := by
        rw [List.tail_nil, ← hseq, Function.update_eq_self]
      simp only [removeHead, hnext, nullObject, ne_eq, not_true_eq_false, if_false, hsame]
      exact ⟨rfl, h⟩
  | cons x rest =>
      rw [hseq, List.headD_cons] at hnext
      have hx : x ≠ list := ne_list_of_mem h hs (by rw [hseq]; simp)
      have hobject : getObject nodeOffset x ≠ nullObject nodeOffset list := by
        rw [nullObject, Ne, getObject_eq_iff, getNode_getObject]
        exact hx
      simp only [removeHead, hnext, if_pos hobject]
      exact ⟨rfl, coherent_removeNode_first h hs hseq⟩

/-- The loop of `removeAll` has `k` nodes to go. -/
def Removing (objects : Objects (Addr w) null) (seq : Addr w → List (Addr w)) (list : Addr w)
    (k : Nat) (s : Mem w × Addr w) : Prop :=
  ∃ rest, Coherent objects s.1 (Function.update seq list rest) ∧ s.2 = rest.headD list ∧
    rest.length = k

/-- A pass of `removeAll` takes the head out, and the nodes that are left bound the passes to
come. -/
theorem removeAllPass_ok {list : Addr w} (hs : list ∈ objects.heads) (k : Nat)
    (s : Mem w × Addr w) (h : Removing objects seq list k s) :
    PassOk (removeAllPass list) (Removing objects seq list)
      (fun mem => Coherent objects mem (Function.update seq list [])) k s := by
  obtain ⟨rest, hco, hn, hk⟩ := h
  have hself : Function.update seq list rest list = rest := Function.update_self ..
  cases rest with
  | nil =>
      refine Or.inr ⟨s.1, ?_, hco⟩
      rw [List.headD_nil] at hn
      simp [removeAllPass, endOfList, hn]
  | cons x rest =>
      rw [List.headD_cons] at hn
      have hx : x ≠ list := ne_list_of_mem hco hs (by rw [hself]; simp)
      have hco' := coherent_removeNode_first hco hs hself
      rw [Function.update_idem] at hco'
      refine Or.inl ⟨(removeNode s.1 x, s.1.next x), rest.length, ?_, ⟨rest, hco', ?_, rfl⟩, ?_⟩
      · simp [removeAllPass, endOfList, hn, hx]
      · exact next_first_eq hco hs hself
      · rw [← hk, List.length_cons]
        exact Nat.lt_succ_self _

/-- `removeAll` ends, and the list is empty then. -/
theorem coherent_removeAll (h : Coherent objects mem seq) {list : Addr w}
    (hs : list ∈ objects.heads) {fuel : Nat} (hfuel : objects.nodes.length < fuel) :
    ∃ mem', removeAll fuel mem list = some mem' ∧
      Coherent objects mem' (Function.update seq list []) := by
  have hstart : Removing objects seq list (seq list).length (mem, getHeadNode mem list) :=
    ⟨seq list, by rwa [Function.update_eq_self], next_list_eq h hs, rfl⟩
  exact loop_rule _ (removeAllPass_ok hs) hstart ((h.length_le hs).trans_lt hfuel)

/-- Every permitted operation on a coherent memory is the operation on the sequences. -/
theorem dlist_simulates (nodeOffset : Addr w) {fuel : Nat}
    (hfuel : objects.nodes.length < fuel) :
    Simulates (dlistStep nodeOffset fuel) (seqStep nodeOffset objects)
      (fun mem seq => Coherent objects mem seq) := by
  intro mem seq h op seq' o hstep
  -- each case takes the preconditions of the step apart and cites the lemma of its function
  cases op with
  | addHead list t =>
      simp only [seqStep, Option.ite_none_right_eq_some] at hstep
      obtain ⟨⟨hs, hn⟩, hout⟩ := hstep
      cases hout
      exact ⟨_, rfl, coherent_insertAfterNode_head h hs hn⟩
  | addTail list t =>
      simp only [seqStep, Option.ite_none_right_eq_some] at hstep
      obtain ⟨⟨hs, hn⟩, hout⟩ := hstep
      cases hout
      exact ⟨_, rfl, coherent_insertBeforeNode_head h hs hn⟩
  | insertAfter afterHere t =>
      simp only [seqStep, Option.ite_none_right_eq_some] at hstep
      obtain ⟨⟨ha, hn⟩, hout⟩ := hstep
      cases hout
      exact ⟨_, rfl, coherent_insertAfterNode h ha hn⟩
  | insertBefore beforeHere t =>
      simp only [seqStep, Option.ite_none_right_eq_some] at hstep
      obtain ⟨⟨hb, hn⟩, hout⟩ := hstep
      cases hout
      exact ⟨_, rfl, coherent_insertBeforeNode h hb hn⟩
  | remove t =>
      simp only [seqStep, Option.ite_none_right_eq_some] at hstep
      obtain ⟨hn, hout⟩ := hstep
      cases hout
      exact ⟨_, rfl, coherent_removeNode h hn⟩
  | removeHead list =>
      simp only [seqStep, Option.ite_none_right_eq_some] at hstep
      obtain ⟨hs, hout⟩ := hstep
      cases hout
      obtain ⟨hobject, hco⟩ := coherent_removeHead h nodeOffset hs
      refine ⟨(removeHead nodeOffset mem list).1, ?_, hco⟩
      rw [← hobject]
      rfl
  | removeAll list =>
      simp only [seqStep, Option.ite_none_right_eq_some] at hstep
      obtain ⟨hs, hout⟩ := hstep
      cases hout
      obtain ⟨mem', hrun, hco⟩ := coherent_removeAll h hs hfuel
      exact ⟨mem', by simp [dlistStep, hrun], hco⟩

end Step

/-! ### Walks over a list -/

section Observe
variable {w : Nat} {mem : Mem w} {list n : Addr w} {xs : List (Addr w)} {nodeOffset : Addr w}

/-- The loop of `isMember` on the way through a sequence: its answer, and the nodes that it looks
at. -/
theorem isMember_of_visits (h : Visits mem.next list n xs) (t : Addr w) {fuel : Nat}
    (hfuel : xs.length < fuel) :
    loop (isMemberPass nodeOffset mem list t) fuel n
        = some (decide (getNode nodeOffset t ∈ xs)) ∧
      loopStates (isMemberPass nodeOffset mem list t) fuel n <+: xs ++ [list] := by
  induction h generalizing fuel with
  -- the walk is at the head again
  | stop =>
      cases fuel with
      | zero => simp at hfuel
      | succ fuel => simp [loop, loopStates, isMemberPass, endOfList]
  | @visit n xs hne hrest ih =>
      cases fuel with
      | zero => simp at hfuel
      | succ fuel =>
          rw [List.length_cons] at hfuel
          by_cases ht : getObject nodeOffset n = t
          · -- the walk stops at the node of the object
            have hn := getObject_eq_iff.mp ht
            have hpass : isMemberPass nodeOffset mem list t n = some (.done true) := by
              simp [isMemberPass, endOfList, hne, ht]
            simp [loop, loopStates, hpass, ← hn]
          · have hn : getNode nodeOffset t ≠ n := fun heq => ht (getObject_eq_iff.mpr heq.symm)
            have hpass : isMemberPass nodeOffset mem list t n = some (.again (mem.next n)) := by
              simp [isMemberPass, endOfList, hne, ht]
            obtain ⟨hloop, hstates⟩ := ih (by omega : _ < fuel)
            simp [loop, loopStates, hpass, hloop, hstates, hn]

/-- The loop of `foreach` on the way through a sequence: its result, and the nodes that it looks
at. -/
theorem foreach_of_visits {κ : Type} (h : Visits mem.next list n xs) (f : Addr w → κ → Int × κ)
    (context : κ) {fuel : Nat} (hfuel : xs.length < fuel) :
    loop (foreachPass nodeOffset mem list f) fuel (n, context)
        = some (visit f (xs.map (getObject nodeOffset)) context) ∧
      (loopStates (foreachPass nodeOffset mem list f) fuel (n, context)).map Prod.fst
        <+: xs ++ [list] := by
  induction h generalizing fuel context with
  | stop =>
      cases fuel with
      | zero => simp at hfuel
      | succ fuel => simp [loop, loopStates, foreachPass, endOfList, visit]
  | @visit n xs hne hrest ih =>
      cases fuel with
      | zero => simp at hfuel
      | succ fuel =>
          rw [List.length_cons] at hfuel
          by_cases hf : (f (getObject nodeOffset n) context).1 = 0
          · obtain ⟨hloop, hstates⟩ :=
              ih (f (getObject nodeOffset n) context).2 (by omega : _ < fuel)
            simp [loop, loopStates, foreachPass, endOfList, hne, hf, visit, hloop, hstates]
          · simp [loop, loopStates, foreachPass, endOfList, hne, hf, visit]

end Observe

/-! ### Observers -/

section Observers
variable {w : Nat} {objects : Objects (Addr w) null} {mem : Mem w} {seq : Addr w → List (Addr w)}
  {list : Addr w} {fuel : Nat}

/-- Followed from the sentinel, the successors spell the sequence and the predecessors spell it
backwards. -/
theorem coherent_follow (h : Coherent objects mem seq) (hs : list ∈ objects.heads)
    (hfuel : objects.nodes.length < fuel) :
    follow mem.next list fuel (mem.next list) = some (seq list) ∧
      follow mem.prev list fuel (mem.prev list) = some (seq list).reverse := by
  have hlt : (seq list).length < fuel := (h.length_le hs).trans_lt hfuel
  have hcycle := h.cycle list hs
  exact ⟨hcycle.visits_next.follow_eq hlt, hcycle.visits_prev.follow_eq (by simpa using hlt)⟩

/-- `isEmpty` says whether the sequence is empty. -/
theorem coherent_isEmpty (h : Coherent objects mem seq) (hs : list ∈ objects.heads) :
    isEmpty mem list = true ↔ seq list = [] := by
  have hfirst := next_list_eq h hs
  cases hseq : seq list with
  | nil => simpa [isEmpty, endOfList, hseq] using hfirst
  | cons x rest =>
      have hx : x ≠ list := ne_list_of_mem h hs (by rw [hseq]; simp)
      simp [isEmpty, endOfList, hfirst, hseq, hx]

/-- `isMember` says whether the object is on the list, and does not look past the sentinel. -/
theorem coherent_isMember (h : Coherent objects mem seq) (hs : list ∈ objects.heads)
    (hfuel : objects.nodes.length < fuel) (nodeOffset t : Addr w) :
    isMember nodeOffset fuel mem list t = some (decide (getNode nodeOffset t ∈ seq list)) ∧
      loopStates (isMemberPass nodeOffset mem list t) fuel (getHeadNode mem list)
        <+: seq list ++ [list] :=
  isMember_of_visits (h.cycle list hs).visits_next t ((h.length_le hs).trans_lt hfuel)

/-- `foreach` calls its function on the objects of the list in order, until one call returns a
value other than zero. -/
theorem coherent_foreach (h : Coherent objects mem seq) (hs : list ∈ objects.heads)
    (hfuel : objects.nodes.length < fuel) (nodeOffset : Addr w) {κ : Type}
    (f : Addr w → κ → Int × κ) (context : κ) :
    foreach nodeOffset fuel mem list f context
        = some (visit f ((seq list).map (getObject nodeOffset)) context) ∧
      (loopStates (foreachPass nodeOffset mem list f) fuel
          (getHeadNode mem list, context)).map Prod.fst <+: seq list ++ [list] :=
  foreach_of_visits (h.cycle list hs).visits_next f context ((h.length_le hs).trans_lt hfuel)

end Observers

/-! ### Runs -/

section Runs
variable {w : Nat} {objects : Objects (Addr w) null}

/-- The lists are coherent after every run of permitted operations from the constructors:
the pointers of each list spell its sequence in both directions, the mark of a node tells
whether it is on a list, and `isEmpty`, `foreach` and `isMember` read the sequence. -/
theorem dlist_coherent (nodeOffset : Addr w) (mem : Mem w) (ops : List (DListOp w))
    {seq : Addr w → List (Addr w)} {outs : List (Option (Addr w))}
    (hspec : run (seqStep nodeOffset objects) (fun _ => []) ops = some (seq, outs))
    {fuel : Nat} (hfuel : objects.nodes.length < fuel) :
    ∃ mem', run (dlistStep nodeOffset fuel) (constructAll objects mem) ops = some (mem', outs) ∧
      (∀ list ∈ objects.heads,
        follow mem'.next list fuel (mem'.next list) = some (seq list) ∧
        follow mem'.prev list fuel (mem'.prev list) = some (seq list).reverse ∧
        (isEmpty mem' list = true ↔ seq list = []) ∧
        (∀ t, isMember nodeOffset fuel mem' list t
            = some (decide (getNode nodeOffset t ∈ seq list)) ∧
          loopStates (isMemberPass nodeOffset mem' list t) fuel (getHeadNode mem' list)
            <+: seq list ++ [list]) ∧
        ∀ (κ : Type) (f : Addr w → κ → Int × κ) (context : κ),
          foreach nodeOffset fuel mem' list f context
            = some (visit f ((seq list).map (getObject nodeOffset)) context) ∧
          (loopStates (foreachPass nodeOffset mem' list f) fuel
              (getHeadNode mem' list, context)).map Prod.fst <+: seq list ++ [list]) ∧
      ∀ n ∈ objects.nodes, isOnList mem' n = true ↔ ∃ list ∈ objects.heads, n ∈ seq list := by
  -- The run of the sequences is followed by the run of the pointers.
  obtain ⟨mem', hrun, h⟩ :=
    (dlist_simulates nodeOffset hfuel).run (coherent_constructAll objects mem) hspec
  refine ⟨mem', hrun, ?_, ?_⟩
  · intro list hs
    obtain ⟨hnext, hprev⟩ := coherent_follow h hs hfuel
    exact ⟨hnext, hprev, coherent_isEmpty h hs, coherent_isMember h hs hfuel nodeOffset,
      fun _ f context => coherent_foreach h hs hfuel nodeOffset f context⟩
  · intro n hn
    rw [isOnList, bne_iff_ne]
    exact h.next_ne_null_iff hn

/-- One list at 8 and two nodes. -/
def oneList : Objects (Addr 16) null where
  heads := [8]
  nodes := [16, 24]
  apart := by simp [List.Disjoint]
  null_not_head := by decide
  null_not_node := by decide

/-- One node is added and removed again, the other one stays. -/
theorem dlist_coherent_oneList :
    ∃ mem', run (dlistStep 4 3) (constructAll oneList ⟨id, id⟩)
        [.addHead 8 12, .insertAfter 12 20, .remove 12] = some (mem', [none, none, none]) ∧
      isOnList mem' 24 = true := by
  have hspec : run (seqStep 4 oneList) (fun _ => [])
      [.addHead 8 12, .insertAfter 12 20, .remove 12] = some (_, [none, none, none]) := rfl
  obtain ⟨mem', hrun, -, hmark⟩ := dlist_coherent 4 ⟨id, id⟩ _ hspec (by decide : 2 < 3)
  exact ⟨mem', hrun, (hmark 24 (by decide)).mpr ⟨8, by decide, by decide⟩⟩

end Runs

end MyTestFiles.Proofs.DList
