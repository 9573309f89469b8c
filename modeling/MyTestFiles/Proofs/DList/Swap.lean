import MyTestFiles.Proofs.DList.Coherence

/-!
# `MyTestFiles.Proofs.DList.Swap`: `swap` exchanges two nodes of a list

`swap` takes one or two nodes out and puts them back behind the nodes that it remembers. The
parts of the list around the two nodes are an `Around`, and each order of the two, next to each
other or not, has its lemma: `coherent_adjacent`, `coherent_exchange_first` and
`coherent_exchange_second`. `coherent_swapNodes` puts them together, and `swap_positions` is the
result for the two walks over one list.

Two nodes next to each other are a special case in the source, because the node that one of them
is put back behind is then the other one. The sequences are compared through `Equiv.swap`, the
permutation that exchanges two nodes, so one equation covers all places of the two nodes in the
list and `swap` is its own inverse (`map_swap_map_swap`).

`swap_positions` is about any list that is a cycle, and about any two of its nodes, the same one
twice included. The walk in either direction meets the nodes with the two exchanged.
-/

set_option autoImplicit false

namespace MyTestFiles.Proofs.DList

open MyTestFiles.Lib
open MyTestFiles.DList

section Swap
variable {w : Nat} {objects : Objects (Addr w) null} {mem : Mem w} {seq : Addr w → List (Addr w)}
  {list n n₁ n₂ : Addr w} {pre post nodes : List (Addr w)}

/-- A removal where the place of the node is known. -/
theorem coherent_removeNode_at (h : Coherent objects mem seq) (hs : list ∈ objects.heads)
    (hseq : seq list = pre ++ n :: post) :
    Coherent objects (removeNode mem n) (Function.update seq list (pre ++ post)) := by
  rw [removeNode_eq_unlink]
  exact h.unlink hs hseq

/-- The node before a member. -/
theorem prev_eq (h : Coherent objects mem seq) (hs : list ∈ objects.heads)
    (hseq : seq list = pre ++ n :: post) : mem.prev n = pre.getLastD list := by
  obtain ⟨a, b, hgap⟩ := exists_gap list pre post
  have hcycle := h.cycle list hs
  rw [hseq] at hcycle
  rw [(hcycle.linked_of_mem hgap).1.2]
  exact gap_left hgap

/-- A node that was taken off its list can be inserted again. -/
theorem insertable_update (h : Coherent objects mem seq) (hs : list ∈ objects.heads)
    (hn : n ∈ seq list) {xs : List (Addr w)} (hxs : n ∉ xs) :
    Insertable objects (Function.update seq list xs) n := by
  refine ⟨h.member list hs n hn, ?_⟩
  rintro ⟨t, ht, hmem⟩
  by_cases hts : t = list
  · subst hts
    rw [Function.update_self] at hmem
    exact hxs hmem
  · rw [Function.update_of_ne hts] at hmem
    exact h.apart t ht list hs hts hmem hn

/-- A sequence without the two nodes is not changed by exchanging them. -/
theorem map_swap_of_not_mem {xs : List (Addr w)} (h₁ : n₁ ∉ xs) (h₂ : n₂ ∉ xs) :
    xs.map (Equiv.swap n₁ n₂) = xs := by
  refine List.map_congr_left (fun c hc => ?_) |>.trans (List.map_id xs)
  refine Equiv.swap_apply_of_ne_of_ne ?_ ?_
  · rintro rfl
    exact h₁ hc
  · rintro rfl
    exact h₂ hc

/-- The steps of `swap` on the nodes. -/
def swapNodes (mem : Mem w) (n₁ n₂ : Addr w) : Mem w :=
  if n₁ = n₂ then mem
  else if mem.prev n₁ = n₂ then insertAfterNode (removeNode mem n₂) n₁ n₂
  else if mem.prev n₂ = n₁ then insertAfterNode (removeNode mem n₁) n₂ n₁
  else
    insertAfterNode
      (insertAfterNode (removeNode (removeNode mem n₁) n₂) (mem.prev n₁) n₂) (mem.prev n₂) n₁

/-- `swap` works on the nodes of the two objects. -/
theorem swap_eq (nodeOffset : Addr w) (mem : Mem w) (item1 item2 : Addr w) :
    swap nodeOffset mem item1 item2
      = swapNodes mem (getNode nodeOffset item1) (getNode nodeOffset item2) := by
  have hinj : getNode nodeOffset item1 = getNode nodeOffset item2 ↔ item1 = item2 := by
    rw [← getObject_eq_iff, getObject_getNode]
  simp only [swap, swapNodes, hinj, getPrev, getObject_eq_iff, remove, insertAfter,
    getNode_getObject]

/-- Two members of a list without repetitions, one before the other. -/
theorem exists_ordered {xs : List (Addr w)} (h₁ : n₁ ∈ xs) (h₂ : n₂ ∈ xs) (hne : n₁ ≠ n₂) :
    ∃ front mid back, xs = front ++ n₁ :: (mid ++ n₂ :: back) ∨
      xs = front ++ n₂ :: (mid ++ n₁ :: back) := by
  obtain ⟨pre, post, rfl⟩ := List.append_of_mem h₁
  rcases List.mem_append.mp h₂ with hpre | hpost
  · obtain ⟨front, mid, rfl⟩ := List.append_of_mem hpre
    exact ⟨front, mid, post, Or.inr (by simp)⟩
  · obtain ⟨mid, back, rfl⟩ := List.append_of_mem ((List.mem_cons.mp hpost).resolve_left hne.symm)
    exact ⟨pre, mid, back, Or.inl rfl⟩

/-- A step on a list whose sequence was changed before. -/
theorem coherent_insert_update (h : Coherent objects mem (Function.update seq list (pre ++ post)))
    (hs : list ∈ objects.heads)
    (hn : Insertable objects (Function.update seq list (pre ++ post)) n) :
    Coherent objects (insertAfterNode mem (pre.getLastD list) n)
      (Function.update seq list (pre ++ n :: post)) := by
  have hco := coherent_insertAfterNode_at h hs (Function.update_self ..) hn
  rwa [Function.update_idem] at hco

/-- A removal from a list that has been changed already. -/
theorem coherent_remove_update
    (h : Coherent objects mem (Function.update seq list (pre ++ n :: post)))
    (hs : list ∈ objects.heads) :
    Coherent objects (removeNode mem n) (Function.update seq list (pre ++ post)) := by
  have hco := coherent_removeNode_at h hs (Function.update_self ..)
  rwa [Function.update_idem] at hco

/-- The last node of a part that is not empty. -/
theorem getLastD_append {xs ys : List (Addr w)} (hne : ys ≠ []) (d d' : Addr w) :
    (xs ++ ys).getLastD d = ys.getLastD d' := by
  obtain ⟨front, c, rfl⟩ := List.eq_nil_or_concat' ys |>.resolve_left hne
  rw [← List.append_assoc, List.getLastD_concat, List.getLastD_concat]

/-- Two nodes of a list and the parts around them. -/
structure Around (seq : Addr w → List (Addr w)) (list n₁ n₂ : Addr w)
    (front mid back : List (Addr w)) : Prop where
  seq_eq : seq list = front ++ n₁ :: (mid ++ n₂ :: back)
  first_not_mem : n₁ ∉ front ++ (mid ++ back)
  second_not_mem : n₂ ∉ front ++ (mid ++ back)
  ne : n₁ ≠ n₂

/-- The parts around two nodes, from the sequence written out. -/
theorem around_of_eq (h : Coherent objects mem seq) (hs : list ∈ objects.heads)
    {front mid back : List (Addr w)} (hseq : seq list = front ++ n₁ :: (mid ++ n₂ :: back)) :
    Around seq list n₁ n₂ front mid back := by
  have hnodup := (List.nodup_cons.mp (h.cycle list hs).nodup).2
  rw [hseq, List.nodup_middle, ← List.append_assoc, List.nodup_cons, List.nodup_middle,
    List.nodup_cons, List.append_assoc] at hnodup
  obtain ⟨h₁, h₂, -⟩ := hnodup
  simp only [List.mem_append, List.mem_cons, not_or] at h₁ h₂
  refine ⟨hseq, ?_, ?_, h₁.2.2.1⟩ <;> simp only [List.mem_append, not_or] <;> tauto

section Exchange
variable {front mid back : List (Addr w)}

/-- The sequence with the two nodes exchanged. -/
theorem Around.map_swap (h : Around seq list n₁ n₂ front mid back) :
    (seq list).map (Equiv.swap n₁ n₂) = front ++ n₂ :: (mid ++ n₁ :: back) := by
  have h₁ := h.first_not_mem
  have h₂ := h.second_not_mem
  simp only [List.mem_append, not_or] at h₁ h₂
  rw [h.seq_eq, List.map_append, List.map_cons, List.map_append, List.map_cons,
    map_swap_of_not_mem h₁.1 h₂.1, map_swap_of_not_mem h₁.2.1 h₂.2.1,
    map_swap_of_not_mem h₁.2.2 h₂.2.2, Equiv.swap_apply_left, Equiv.swap_apply_right]

/-- Each node goes to the place of the other, first the second node. -/
theorem coherent_exchange_second (h : Coherent objects mem seq) (hs : list ∈ objects.heads)
    (ha : Around seq list n₁ n₂ front mid back) (hne : mid ≠ []) :
    Coherent objects
      (insertAfterNode (insertAfterNode (removeNode (removeNode mem n₁) n₂)
        (front.getLastD list) n₂) (mid.getLastD list) n₁)
      (Function.update seq list (front ++ n₂ :: (mid ++ n₁ :: back))) := by
  have hmem₁ : n₁ ∈ seq list := by rw [ha.seq_eq]; simp
  have hmem₂ : n₂ ∈ seq list := by rw [ha.seq_eq]; simp
  have hremoved := coherent_removeNode_at h hs ha.seq_eq
  rw [← List.append_assoc] at hremoved
  have hboth := coherent_remove_update hremoved hs
  rw [List.append_assoc] at hboth
  have hone := coherent_insert_update hboth hs (insertable_update h hs hmem₂ ha.second_not_mem)
  rw [← List.cons_append, ← List.append_assoc] at hone
  have htwo := coherent_insert_update hone hs (insertable_update h hs hmem₁ ?_)
  · rw [getLastD_append (List.cons_ne_nil _ _) list n₂, ← List.singleton_append,
      getLastD_append hne n₂ list] at htwo
    simpa using htwo
  · have hnot := ha.first_not_mem
    simp only [List.mem_append, List.mem_cons, not_or] at hnot ⊢
    exact ⟨⟨hnot.1, ha.ne, hnot.2.1⟩, hnot.2.2⟩

/-- Each node goes to the place of the other, first the first node. -/
theorem coherent_exchange_first (h : Coherent objects mem seq) (hs : list ∈ objects.heads)
    (ha : Around seq list n₁ n₂ front mid back) (hne : mid ≠ []) :
    Coherent objects
      (insertAfterNode (insertAfterNode (removeNode (removeNode mem n₂) n₁)
        (mid.getLastD list) n₁) (front.getLastD list) n₂)
      (Function.update seq list (front ++ n₂ :: (mid ++ n₁ :: back))) := by
  have hmem₁ : n₁ ∈ seq list := by rw [ha.seq_eq]; simp
  have hmem₂ : n₂ ∈ seq list := by rw [ha.seq_eq]; simp
  have hcut : seq list = (front ++ n₁ :: mid) ++ n₂ :: back := by rw [ha.seq_eq]; simp
  have hremoved := coherent_removeNode_at h hs hcut
  rw [List.append_assoc, List.cons_append] at hremoved
  have hboth := coherent_remove_update hremoved hs
  rw [← List.append_assoc] at hboth
  have hone := coherent_insert_update hboth hs (insertable_update h hs hmem₁ ?_)
  · rw [getLastD_append hne list list, List.append_assoc] at hone
    refine coherent_insert_update hone hs (insertable_update h hs hmem₂ ?_)
    have hnot := ha.second_not_mem
    simp only [List.mem_append, List.mem_cons, not_or] at hnot ⊢
    exact ⟨hnot.1, hnot.2.1, ha.ne.symm, hnot.2.2⟩
  · rw [List.append_assoc]
    exact ha.first_not_mem

/-- Two nodes next to each other: the first goes behind the second. -/
theorem coherent_adjacent (h : Coherent objects mem seq) (hs : list ∈ objects.heads)
    (ha : Around seq list n₁ n₂ front [] back) :
    Coherent objects (insertAfterNode (removeNode mem n₁) n₂ n₁)
      (Function.update seq list (front ++ n₂ :: n₁ :: back)) := by
  have hmem₁ : n₁ ∈ seq list := by rw [ha.seq_eq]; simp
  have hremoved := coherent_removeNode_at h hs ha.seq_eq
  have hcut : front ++ ([] ++ n₂ :: back) = (front ++ [n₂]) ++ back := by simp
  rw [hcut] at hremoved
  have hone := coherent_insert_update hremoved hs (insertable_update h hs hmem₁ ?_)
  · rw [List.getLastD_concat] at hone
    simpa using hone
  · have hnot := ha.first_not_mem
    simp only [List.mem_append, List.mem_cons, not_or] at hnot ⊢
    exact ⟨⟨hnot.1, ha.ne, List.not_mem_nil⟩, hnot.2.2⟩

/-- The node before the first node is none of the two, and the node before the second one is the
first exactly where they are next to each other. -/
theorem Around.prev_first (h : Coherent objects mem seq) (hs : list ∈ objects.heads)
    (ha : Around seq list n₁ n₂ front mid back) :
    mem.prev n₁ = front.getLastD list ∧ mem.prev n₁ ≠ n₂ := by
  have hprev := prev_eq h hs ha.seq_eq
  refine ⟨hprev, ?_⟩
  rw [hprev]
  intro heq
  have hmem : front.getLastD list ∈ list :: front := List.getLastD_mem_cons
  rw [heq, List.mem_cons] at hmem
  rcases hmem with hlist | hfront
  · exact ne_list_of_mem h hs (by rw [ha.seq_eq]; simp) hlist
  · exact ha.second_not_mem (List.mem_append_left _ hfront)

/-- The node before the second one. -/
theorem Around.prev_second (h : Coherent objects mem seq) (hs : list ∈ objects.heads)
    (ha : Around seq list n₁ n₂ front mid back) :
    mem.prev n₂ = mid.getLastD n₁ := by
  have hcut : seq list = (front ++ n₁ :: mid) ++ n₂ :: back := by rw [ha.seq_eq]; simp
  rw [prev_eq h hs hcut, getLastD_append (List.cons_ne_nil _ _) list list, List.getLastD_cons]

/-- With a node between the two, the node before the second one is not the first. -/
theorem Around.prev_second_of_ne_nil (h : Coherent objects mem seq) (hs : list ∈ objects.heads)
    (ha : Around seq list n₁ n₂ front mid back) (hne : mid ≠ []) :
    mem.prev n₂ = mid.getLastD list ∧ mem.prev n₂ ≠ n₁ := by
  obtain ⟨pre, c, rfl⟩ := List.eq_nil_or_concat' mid |>.resolve_left hne
  have hprev := ha.prev_second h hs
  rw [List.getLastD_concat] at hprev
  rw [List.getLastD_concat]
  refine ⟨hprev, ?_⟩
  rw [hprev]
  rintro rfl
  exact ha.first_not_mem (by simp)

end Exchange

/-- A swap exchanges two nodes of a list. -/
theorem coherent_swapNodes (h : Coherent objects mem seq) (hs : list ∈ objects.heads)
    (h₁ : n₁ ∈ seq list) (h₂ : n₂ ∈ seq list) :
    Coherent objects (swapNodes mem n₁ n₂)
      (Function.update seq list ((seq list).map (Equiv.swap n₁ n₂))) := by
  by_cases hne : n₁ = n₂
  · subst hne
    rw [swapNodes, if_pos rfl, Equiv.swap_self]
    simpa using h
  -- The tests of the source ask which item is directly before the other, so their order decides.
  · obtain ⟨front, mid, back, hseq | hseq⟩ := exists_ordered h₁ h₂ hne
    · have ha := around_of_eq h hs hseq
      obtain ⟨hprev₁, hne₁⟩ := ha.prev_first h hs
      rw [ha.map_swap, swapNodes, if_neg hne, if_neg hne₁]
      by_cases hmid : mid = []
      · subst hmid
        have hprev := ha.prev_second h hs
        rw [List.getLastD_nil] at hprev
        rw [if_pos hprev]
        exact coherent_adjacent h hs ha
      · obtain ⟨hprev₂, hne₂⟩ := ha.prev_second_of_ne_nil h hs hmid
        rw [if_neg hne₂, hprev₁, hprev₂]
        exact coherent_exchange_second h hs ha hmid
    · -- the second item comes first on the list
      have ha := around_of_eq h hs hseq
      obtain ⟨hprev₂, hne₂⟩ := ha.prev_first h hs
      rw [Equiv.swap_comm, ha.map_swap, swapNodes, if_neg hne]
      by_cases hmid : mid = []
      · subst hmid
        have hprev := ha.prev_second h hs
        rw [List.getLastD_nil] at hprev
        rw [if_pos hprev]
        exact coherent_adjacent h hs ha
      · obtain ⟨hprev₁, hne₁⟩ := ha.prev_second_of_ne_nil h hs hmid
        rw [if_neg hne₁, if_neg hne₂, hprev₁, hprev₂]
        exact coherent_exchange_first h hs ha hmid

/-- A swap changes one sequence only. -/
theorem map_swap_eq_update (h : Coherent objects mem seq) (hs : list ∈ objects.heads)
    (h₁ : n₁ ∈ seq list) (h₂ : n₂ ∈ seq list) :
    (fun s => (seq s).map (Equiv.swap n₁ n₂))
      = Function.update seq list ((seq list).map (Equiv.swap n₁ n₂)) := by
  funext s
  by_cases hsl : s = list
  · subst hsl
    rw [Function.update_self]
  · rw [Function.update_of_ne hsl]
    by_cases hmem : s ∈ objects.heads
    · have hdisj := h.apart list hs s hmem (Ne.symm hsl)
      exact map_swap_of_not_mem (hdisj h₁) (hdisj h₂)
    · rw [h.outside s hmem, List.map_nil]

/-! ### Two positions of one list -/

/-- In a list without repetitions the exchange of two nodes is that of their positions. -/
theorem map_swap_eq_set {xs : List (Addr w)} (hnodup : xs.Nodup) {i j : Nat}
    (h₁ : xs[i]? = some n₁) (h₂ : xs[j]? = some n₂) :
    xs.map (Equiv.swap n₁ n₂) = (xs.set i n₂).set j n₁ := by
  obtain ⟨hi, rfl⟩ := List.getElem?_eq_some_iff.mp h₁
  obtain ⟨hj, rfl⟩ := List.getElem?_eq_some_iff.mp h₂
  apply List.ext_getElem
  · simp
  · intro k hk _
    have hk' : k < xs.length := by simpa using hk
    rw [List.getElem_map, List.getElem_set, List.getElem_set]
    by_cases hjk : j = k
    · subst hjk
      rw [if_pos rfl, Equiv.swap_apply_right]
    · rw [if_neg hjk]
      by_cases hik : i = k
      · subst hik
        rw [if_pos rfl, Equiv.swap_apply_left]
      · rw [if_neg hik]
        -- another node is none of the two
        refine Equiv.swap_apply_of_ne_of_ne ?_ ?_
        · intro heq
          exact hik ((hnodup.getElem_inj_iff.mp heq).symm)
        · intro heq
          exact hjk ((hnodup.getElem_inj_iff.mp heq).symm)

/-- A list on its own, as a collection. -/
def single (list : Addr w) (nodes : List (Addr w)) (hnodup : (list :: nodes).Nodup)
    (hnull : null ∉ list :: nodes) : Objects (Addr w) null where
  heads := [list]
  nodes := nodes
  apart := by
    intro c hc hnode
    rw [List.mem_singleton.mp hc] at hnode
    exact (List.nodup_cons.mp hnodup).1 hnode
  null_not_head := fun h => hnull (List.mem_singleton.mp h ▸ List.mem_cons_self)
  null_not_node := fun h => hnull (List.mem_cons_of_mem _ h)

/-- A cycle alone is a coherent memory with one list. -/
theorem coherent_single (hcycle : IsCycle mem list nodes)
    (hnull : null ∉ list :: nodes) :
    Coherent (single list nodes hcycle.nodup hnull) mem
      (Function.update (fun _ => []) list nodes) where
  cycle := by
    intro s hs
    rw [List.mem_singleton.mp hs, Function.update_self]
    exact hcycle
  apart := by
    intro s hs t ht hne
    rw [List.mem_singleton.mp hs, List.mem_singleton.mp ht] at hne
    exact absurd rfl hne
  member := by
    intro s hs n hn
    rw [List.mem_singleton.mp hs, Function.update_self] at hn
    exact hn
  off := by
    intro n hn hoff
    refine absurd ⟨list, List.mem_singleton_self list, ?_⟩ hoff
    rw [Function.update_self]
    exact hn
  outside := by
    intro s hs
    exact Function.update_of_ne (fun h => hs (List.mem_singleton.mpr h)) _ _

/-- On one cycle `swap` exchanges the two nodes in the sequence. -/
theorem isCycle_swapNodes (hcycle : IsCycle mem list nodes)
    (hnull : null ∉ list :: nodes) (h₁ : n₁ ∈ nodes) (h₂ : n₂ ∈ nodes) :
    IsCycle (swapNodes mem n₁ n₂) list (nodes.map (Equiv.swap n₁ n₂)) := by
  have hco := coherent_single hcycle hnull
  have hs : list ∈ (single list nodes hcycle.nodup hnull).heads := List.mem_singleton_self list
  have hseq : Function.update (fun _ => []) list nodes list = nodes := Function.update_self ..
  have hswap := coherent_swapNodes hco hs (by rw [hseq]; exact h₁) (by rw [hseq]; exact h₂)
  have hcycle' := hswap.cycle list hs
  rw [Function.update_self, hseq] at hcycle'
  exact hcycle'

/-- What a walk in each direction meets. -/
theorem follow_of_isCycle (hcycle : IsCycle mem list nodes) {fuel : Nat}
    (hfuel : nodes.length < fuel) :
    follow mem.next list fuel (mem.next list) = some nodes ∧
      follow mem.prev list fuel (mem.prev list) = some nodes.reverse :=
  ⟨hcycle.visits_next.follow_eq hfuel, hcycle.visits_prev.follow_eq (by simpa using hfuel)⟩

/-- Two exchanges of the same nodes cancel. -/
theorem map_swap_map_swap (xs : List (Addr w)) :
    (xs.map (Equiv.swap n₁ n₂)).map (Equiv.swap n₁ n₂) = xs := by
  rw [List.map_map, ← Equiv.coe_trans, ← Equiv.Perm.mul_def, Equiv.swap_mul_self]
  exact List.map_id xs

/-- An exchange of two entries brings in no other one. -/
theorem mem_of_map_swap {xs : List (Addr w)} (h₁ : n₁ ∈ xs) (h₂ : n₂ ∈ xs) :
    ∀ n ∈ xs.map (Equiv.swap n₁ n₂), n ∈ xs := by
  intro n hn
  obtain ⟨m, hm, rfl⟩ := List.mem_map.mp hn
  rw [Equiv.swap_apply_def]
  split
  · exact h₂
  · split
    · exact h₁
    · exact hm

/-- A second exchange takes the nodes back. -/
theorem isCycle_swapNodes_twice (hcycle : IsCycle mem list nodes)
    (hnull : null ∉ list :: nodes) (h₁ : n₁ ∈ nodes) (h₂ : n₂ ∈ nodes) :
    IsCycle (swapNodes (swapNodes mem n₁ n₂) n₁ n₂) list nodes := by
  have hnull' : null ∉ list :: nodes.map (Equiv.swap n₁ n₂) := by
    intro h
    rcases List.mem_cons.mp h with hlist | hnode
    · exact hnull (hlist ▸ List.mem_cons_self)
    · exact hnull (List.mem_cons_of_mem _ (mem_of_map_swap h₁ h₂ null hnode))
  have h₁' : n₁ ∈ nodes.map (Equiv.swap n₁ n₂) :=
    List.mem_map.mpr ⟨n₂, h₂, Equiv.swap_apply_right _ _⟩
  have h₂' : n₂ ∈ nodes.map (Equiv.swap n₁ n₂) :=
    List.mem_map.mpr ⟨n₁, h₁, Equiv.swap_apply_left _ _⟩
  have hback := isCycle_swapNodes (isCycle_swapNodes hcycle hnull h₁ h₂) hnull' h₁' h₂'
  rwa [map_swap_map_swap] at hback

/-- `swap` exchanges the nodes at two positions of a list, in both directions of walking, and
the same call again takes them back. -/
theorem swap_positions (nodeOffset : Addr w) (hcycle : IsCycle mem list nodes)
    (hnull : null ∉ list :: nodes) {item1 item2 : Addr w} {i j : Nat}
    (h₁ : nodes[i]? = some (getNode nodeOffset item1))
    (h₂ : nodes[j]? = some (getNode nodeOffset item2)) {fuel : Nat} (hfuel : nodes.length < fuel) :
    let mem' := swap nodeOffset mem item1 item2
    let mem'' := swap nodeOffset mem' item1 item2
    let exchanged := (nodes.set i (getNode nodeOffset item2)).set j (getNode nodeOffset item1)
    follow mem'.next list fuel (mem'.next list) = some exchanged ∧
      follow mem'.prev list fuel (mem'.prev list) = some exchanged.reverse ∧
      follow mem''.next list fuel (mem''.next list) = some nodes ∧
      follow mem''.prev list fuel (mem''.prev list) = some nodes.reverse := by
  intro mem' mem'' exchanged
  have hnodup := (List.nodup_cons.mp hcycle.nodup).2
  have hmem₁ := List.mem_of_getElem? h₁
  have hmem₂ := List.mem_of_getElem? h₂
  have hset : nodes.map (Equiv.swap (getNode nodeOffset item1) (getNode nodeOffset item2)) =
      exchanged := map_swap_eq_set hnodup h₁ h₂
  -- Each call leaves a cycle, and walking reads the members of a cycle.
  have hone : IsCycle mem' list exchanged := by
    show IsCycle (swap nodeOffset mem item1 item2) list exchanged
    rw [swap_eq, ← hset]
    exact isCycle_swapNodes hcycle hnull hmem₁ hmem₂
  have htwo : IsCycle mem'' list nodes := by
    show IsCycle (swap nodeOffset (swap nodeOffset mem item1 item2) item1 item2) list nodes
    rw [swap_eq, swap_eq]
    exact isCycle_swapNodes_twice hcycle hnull hmem₁ hmem₂
  have hlen : exchanged.length < fuel := by
    show ((nodes.set i _).set j _).length < fuel
    rw [List.length_set, List.length_set]
    exact hfuel
  obtain ⟨hforward, hbackward⟩ := follow_of_isCycle hone hlen
  exact ⟨hforward, hbackward, follow_of_isCycle htwo hfuel⟩

/-- The pointers of a list with three nodes. -/
def threeNodes : Mem 16 where
  next := fun c => if c = 8 then 16 else if c = 16 then 24 else if c = 24 then 32 else 8
  prev := fun c => if c = 8 then 32 else if c = 16 then 8 else if c = 24 then 16 else 24

/-- Two neighbours at the end, the later one first. -/
theorem swap_positions_threeNodes :
    let mem' := swap 4 threeNodes 28 20
    follow mem'.next 8 4 (mem'.next 8) = some [16, 32, 24] := by
  have hcycle : IsCycle threeNodes 8 [16, 24, 32] :=
    ⟨by decide, by simp [Links.Linked, threeNodes]⟩
  exact (swap_positions 4 hcycle (by decide) (show [16, 24, 32][2]? = some (getNode 4 28) from rfl)
    (show [16, 24, 32][1]? = some (getNode 4 20) from rfl) (show 3 < 4 by decide)).1

end Swap

end MyTestFiles.Proofs.DList
