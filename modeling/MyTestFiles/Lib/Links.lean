import Mathlib

/-!
# `MyTestFiles.Lib.Links`: circular doubly linked lists

Nodes carry a `next` and a `prev` pointer in a `Links` memory. A list is a cycle through a
sentinel: `IsCycle l s xs` says that the cycle from `s` visits `xs` and that every step
forward is undone by a step back. `Links.splice` puts a node between two neighbours
(`IsCycle.splice`), and `Links.unlink` takes one out (`IsCycle.unlink`). Both touch only
their own cycle (`IsCycle.congr`).

`Coherent` is a collection of such lists over a set of objects: the cycles are disjoint,
and a node is off every list just when its `next` is the null pointer.

A `Links` memory is two functions, and each operation is a few updates of them. So a property of
an operation is a property of the four nodes that it writes, and every other node is as it was.

* `Gap s pre post a b` says that `a` and `b` are the neighbours between two parts of a cycle. It
  covers the places next to the sentinel, so an insertion at an end is no special case.
* `Visits step stop n xs` is a walk from `n` to `stop`. Both directions of a cycle are such walks,
  and a loop over a list is compared with one.
* `putAfter` and `putBefore` are the insertions on sequences. A sequence without the node is left
  alone, so one function speaks for all lists at once.
-/

set_option autoImplicit false

namespace MyTestFiles.Lib

/-! ### Pointers -/

/-- The two pointers of every node. -/
@[ext] structure Links (ν : Type*) where
  next : ν → ν
  prev : ν → ν

namespace Links
variable {ν : Type*} [DecidableEq ν]

/-- Stores the successor of a node. -/
def setNext (l : Links ν) (n p : ν) : Links ν := { l with next := Function.update l.next n p }

/-- Stores the predecessor of a node. -/
def setPrev (l : Links ν) (n p : ν) : Links ν := { l with prev := Function.update l.prev n p }

/-- A store of a successor is seen at its own node only. -/
@[simp] theorem setNext_next (l : Links ν) (n p c : ν) :
    (l.setNext n p).next c = if c = n then p else l.next c := Function.update_apply ..

/-- A store of a successor leaves the predecessors alone. -/
@[simp] theorem setNext_prev (l : Links ν) (n p : ν) : (l.setNext n p).prev = l.prev := rfl

/-- A store of a predecessor leaves the successors alone. -/
@[simp] theorem setPrev_next (l : Links ν) (n p : ν) : (l.setPrev n p).next = l.next := rfl

/-- A store of a predecessor is seen at its own node only. -/
@[simp] theorem setPrev_prev (l : Links ν) (n p c : ν) :
    (l.setPrev n p).prev c = if c = n then p else l.prev c := Function.update_apply ..

/-- `b` comes right after `a`, seen from both sides. -/
def Linked (l : Links ν) (a b : ν) : Prop := l.next a = b ∧ l.prev b = a

/-- The links after `n` is put between `a` and `b`. -/
def splice (l : Links ν) (a n b : ν) : Links ν where
  next c := if c = a then n else if c = n then b else l.next c
  prev c := if c = b then n else if c = n then a else l.prev c

/-- The links after `n` is taken out from between its neighbours. Its own `next` becomes
the null pointer. -/
def unlink (l : Links ν) (n null : ν) : Links ν where
  next c := if c = n then null else if c = l.prev n then l.next n else l.next c
  prev c := if c = l.next n then l.prev n else l.prev c

/-- The links after the nodes from `y` to `z` follow `a`, the last node on the cycle of the
sentinel `s`. -/
def join (l : Links ν) (s a y z : ν) : Links ν where
  next c := if c = a then y else if c = z then s else l.next c
  prev c := if c = s then z else if c = y then a else l.prev c

end Links

section Chain
variable {ν : Type*} {l l' : Links ν}

/-- A chain survives a change of other pointers: `next` of its last node and `prev` of its
first are not its own. -/
theorem chain_congr {ws : List ν} (h : ws.IsChain l.Linked)
    (hnext : ∀ c ∈ ws.dropLast, l'.next c = l.next c)
    (hprev : ∀ c ∈ ws.tail, l'.prev c = l.prev c) : ws.IsChain l'.Linked := by
  induction ws with
  | nil => exact .nil
  | cons a ws ih =>
      cases ws with
      | nil => exact .singleton a
      | cons b ws =>
          rw [List.isChain_cons_cons] at h ⊢
          obtain ⟨⟨hab, hba⟩, hrest⟩ := h
          have hlink : l'.Linked a b :=
            ⟨(hnext a (by simp)).trans hab, (hprev b (by simp)).trans hba⟩
          refine ⟨hlink, ih hrest (fun c hc => hnext c ?_) (fun c hc => hprev c ?_)⟩
          · rw [List.dropLast_cons_of_ne_nil (by simp)]
            exact List.mem_cons_of_mem a hc
          · exact List.mem_of_mem_tail hc

end Chain

/-! ### Cycles -/

section Cycle
variable {ν : Type*} {l l' : Links ν} {s : ν} {xs pre post : List ν}

/-- The cycle from the sentinel `s` visits `xs`, and going back undoes going forward. -/
structure IsCycle (l : Links ν) (s : ν) (xs : List ν) : Prop where
  nodup : (s :: xs).Nodup
  chain : (s :: (xs ++ [s])).IsChain l.Linked

/-- The place between `pre` and `post` on the cycle of `s`: `a` is the last node before it
and `b` the first one after it. -/
def Gap (s : ν) (pre post : List ν) (a b : ν) : Prop :=
  ∃ front back, s :: pre = front ++ [a] ∧ post ++ [s] = b :: back

/-- There are neighbours at every place of a cycle. -/
theorem exists_gap (s : ν) (pre post : List ν) : ∃ a b, Gap s pre post a b := by
  obtain ⟨front, a, hfront⟩ : ∃ front a, s :: pre = front ++ [a] :=
    (List.eq_nil_or_concat' (s :: pre)).resolve_left (by simp)
  obtain ⟨b, back, hback⟩ : ∃ b back, post ++ [s] = b :: back :=
    List.exists_cons_of_ne_nil (by simp)
  exact ⟨a, b, front, back, hfront, hback⟩

/-- The last node before a gap, the sentinel where there is none. -/
theorem gap_left {a b : ν} (h : Gap s pre post a b) : a = pre.getLastD s := by
  obtain ⟨front, back, hfront, -⟩ := h
  have hlast := congrArg (fun ws => ws.getLastD s) hfront
  rw [List.getLastD_concat, List.getLastD_cons] at hlast
  exact hlast.symm

/-- At the end of a sequence the right neighbour is the sentinel. -/
theorem gap_tail {a b : ν} (h : Gap s pre [] a b) : b = s := by
  obtain ⟨front, back, -, hback⟩ := h
  exact (List.cons.inj hback).1.symm

/-- Within a sequence the right neighbour is the first node of the second part. -/
theorem gap_cons {a c b : ν} (h : Gap s pre (c :: post) a b) : b = c := by
  obtain ⟨front, back, -, hback⟩ := h
  exact (List.cons.inj hback).1.symm

/-- The sentinel and the first part belong to the cycle. -/
theorem mem_cycle_of_mem_left {c : ν} (h : c ∈ s :: pre) : c ∈ s :: (pre ++ post) := by
  simp only [List.mem_cons, List.mem_append] at h ⊢
  tauto

/-- The second part and the sentinel belong to the cycle. -/
theorem mem_cycle_of_mem_right {c : ν} (h : c ∈ post ++ [s]) : c ∈ s :: (pre ++ post) := by
  simp only [List.mem_cons, List.mem_append, List.not_mem_nil, or_false] at h ⊢
  tauto

/-- A cycle with one more node has the nodes of the cycle and that one. -/
theorem perm_middle (s n : ν) :
    (s :: (pre ++ n :: post)).Perm (n :: s :: (pre ++ post)) :=
  (List.perm_middle.cons s).trans (List.Perm.swap n s _)

/-- The ends of a gap are on the cycle. -/
theorem Gap.mem {a b : ν} (h : Gap s pre post a b) :
    a ∈ s :: (pre ++ post) ∧ b ∈ s :: (pre ++ post) := by
  obtain ⟨front, back, hfront, hback⟩ := h
  constructor
  · apply mem_cycle_of_mem_left
    rw [hfront]
    simp
  · apply mem_cycle_of_mem_right
    rw [hback]
    simp

/-- The chain of a cycle, cut at a gap. -/
theorem chain_cut {a b : ν} {front back : List ν} (hfront : s :: pre = front ++ [a])
    (hback : post ++ [s] = b :: back) (mid : List ν) :
    s :: (pre ++ mid ++ post ++ [s]) = front ++ a :: (mid ++ b :: back) := by
  have hword : s :: (pre ++ mid ++ post ++ [s]) = (s :: pre) ++ (mid ++ (post ++ [s])) := by
    simp
  rw [hword, hfront, hback]
  simp

namespace IsCycle

/-- A cycle depends only on the pointers of its own nodes. -/
theorem congr (h : IsCycle l s xs)
    (hsame : ∀ c ∈ s :: xs, l'.next c = l.next c ∧ l'.prev c = l.prev c) : IsCycle l' s xs where
  nodup := h.nodup
  chain := by
    refine chain_congr h.chain (fun c hc => (hsame c ?_).1) (fun c hc => (hsame c ?_).2)
    · rw [← List.cons_append, List.dropLast_concat] at hc
      exact hc
    · simpa [or_comm] using hc

/-- Neighbours in a cycle point at each other. -/
theorem linked_of_gap {a b : ν} (h : IsCycle l s (pre ++ post)) (hgap : Gap s pre post a b) :
    l.Linked a b := by
  obtain ⟨front, back, hfront, hback⟩ := hgap
  have hchain := h.chain
  have hcut := chain_cut hfront hback []
  rw [List.append_nil] at hcut
  rw [hcut, List.nil_append, List.isChain_append_cons_cons] at hchain
  exact hchain.2.1

/-- The two halves of a cycle at a gap, after a change of the pointers around the gap. -/
theorem halves {a b : ν} {front back : List ν} (l' : Links ν) (n : ν)
    (hnodup : (s :: (pre ++ post)).Nodup)
    (hfront : s :: pre = front ++ [a]) (hback : post ++ [s] = b :: back)
    (hleft : (front ++ [a]).IsChain l.Linked) (hright : (b :: back).IsChain l.Linked)
    (hnext : ∀ c, c ≠ a → c ≠ n → l'.next c = l.next c)
    (hprev : ∀ c, c ≠ b → c ≠ n → l'.prev c = l.prev c)
    (hn : n ∉ s :: (pre ++ post)) :
    (front ++ [a]).IsChain l'.Linked ∧ (b :: back).IsChain l'.Linked := by
  have hpost : (post ++ [s]).Nodup :=
    (List.perm_append_singleton s post).nodup_iff.mpr (hnodup.sublist (by simp))
  have hpre : (s :: pre).Nodup := hnodup.sublist (by simp)
  have hcross : ∀ c ∈ s :: pre, c ∉ post := by
    intro c hc
    have hdisj := List.nodup_append'.mp (by simpa using hnodup : ((s :: pre) ++ post).Nodup)
    exact fun hpost => hdisj.2.2 hc hpost
  have ha : a ∈ s :: pre := by rw [hfront]; simp
  have hb : b ∈ post ++ [s] := by rw [hback]; simp
  have hnPre : ∀ c ∈ s :: pre, c ≠ n := by
    rintro c hc rfl
    exact hn (mem_cycle_of_mem_left hc)
  have hnPost : ∀ c ∈ post ++ [s], c ≠ n := by
    rintro c hc rfl
    exact hn (mem_cycle_of_mem_right hc)
  -- The links that changed are at `a` and `b`, the ends of the halves, and at `n`, in neither.
  constructor
  · refine chain_congr hleft (fun c hc => hnext c ?_ ?_) (fun c hc => hprev c ?_ ?_)
    · rw [List.dropLast_concat] at hc
      rintro rfl
      rw [hfront, List.nodup_append'] at hpre
      exact hpre.2.2 hc (by simp)
    · exact hnPre c (by rw [hfront]; exact List.mem_of_mem_dropLast hc)
    · -- the nodes after the sentinel are not `b`, which is in `post` or is the sentinel
      rw [← hfront, List.tail_cons] at hc
      rintro rfl
      rcases List.mem_append.mp hb with hbp | hbs
      · exact hcross c (by simp [hc]) hbp
      · rw [List.mem_singleton.mp hbs] at hc
        exact (List.nodup_cons.mp hpre).1 hc
    · rw [← hfront, List.tail_cons] at hc
      exact hnPre c (by simp [hc])
  · refine chain_congr hright (fun c hc => hnext c ?_ ?_) (fun c hc => hprev c ?_ ?_)
    · rw [← hback, List.dropLast_concat] at hc
      rintro rfl
      exact hcross c ha hc
    · rw [← hback, List.dropLast_concat] at hc
      exact hnPost c (by simp [hc])
    · rw [List.tail_cons] at hc
      rintro rfl
      rw [hback] at hpost
      exact (List.nodup_cons.mp hpost).1 hc
    · exact hnPost c (by rw [hback]; exact List.mem_of_mem_tail hc)

/-- The neighbours of a node on a cycle. -/
theorem linked_of_mem {n a b : ν} (h : IsCycle l s (pre ++ n :: post))
    (hgap : Gap s pre post a b) : l.Linked a n ∧ l.Linked n b := by
  obtain ⟨front, back, hfront, hback⟩ := hgap
  have hword : s :: (pre ++ n :: post ++ [s]) = front ++ a :: n :: b :: back := by
    simpa using chain_cut hfront hback [n]
  have hchain := h.chain
  rw [hword, List.isChain_append_cons_cons, List.isChain_cons_cons] at hchain
  exact ⟨hchain.2.1, hchain.2.2.1⟩

variable [DecidableEq ν]

/-- A new node in a gap. -/
theorem splice {a n b : ν} (h : IsCycle l s (pre ++ post)) (hgap : Gap s pre post a b)
    (hn : n ∉ s :: (pre ++ post)) : IsCycle (l.splice a n b) s (pre ++ n :: post) := by
  have ha : n ≠ a := by
    rintro rfl
    exact hn hgap.mem.1
  have hb : n ≠ b := by
    rintro rfl
    exact hn hgap.mem.2
  -- The chain is cut at the gap, and the new node is put between the two halves.
  obtain ⟨front, back, hfront, hback⟩ := hgap
  have hcut := chain_cut hfront hback []
  rw [List.append_nil] at hcut
  have hchain := h.chain
  rw [hcut, List.nil_append, List.isChain_append_cons_cons] at hchain
  obtain ⟨hleft, -, hright⟩ := hchain
  obtain ⟨hleft', hright'⟩ := halves (l.splice a n b) n h.nodup hfront hback hleft hright
    (fun c hca hcn => by simp [Links.splice, hca, hcn])
    (fun c hcb hcn => by simp [Links.splice, hcb, hcn]) hn
  constructor
  · exact (perm_middle s n).nodup_iff.mpr (List.nodup_cons.mpr ⟨hn, h.nodup⟩)
  · have hword : s :: (pre ++ n :: post ++ [s]) = front ++ a :: n :: b :: back := by
      have := chain_cut hfront hback [n]
      simpa using this
    rw [hword, List.isChain_append_cons_cons, List.isChain_cons_cons]
    refine ⟨hleft', ⟨by simp [Links.splice], by simp [Links.splice, hb]⟩, ⟨?_, ?_⟩, hright'⟩
    · simp [Links.splice, ha]
    · simp [Links.splice]

/-- A node taken out of a cycle. -/
theorem unlink {n : ν} (h : IsCycle l s (pre ++ n :: post)) (null : ν) :
    IsCycle (l.unlink n null) s (pre ++ post) := by
  obtain ⟨a, b, hgap⟩ := exists_gap s pre post
  obtain ⟨hprev, hnext⟩ := h.linked_of_mem hgap
  obtain ⟨hn, hnodup⟩ := List.nodup_cons.mp ((perm_middle s n).nodup_iff.mp h.nodup)
  have ha : a ≠ n := by
    rintro rfl
    exact hn hgap.mem.1
  -- With the node cut out, the chain is the two halves and one new link between them.
  obtain ⟨front, back, hfront, hback⟩ := hgap
  have hword : s :: (pre ++ n :: post ++ [s]) = front ++ a :: n :: b :: back := by
    simpa using chain_cut hfront hback [n]
  have hchain := h.chain
  rw [hword, List.isChain_append_cons_cons, List.isChain_cons_cons] at hchain
  obtain ⟨hleft, -, -, hright⟩ := hchain
  obtain ⟨hleft', hright'⟩ := halves (l.unlink n null) n hnodup hfront hback hleft hright
    (fun c hca hcn => by simp [Links.unlink, hcn, hprev.2, hca])
    (fun c hcb _ => by simp [Links.unlink, hnext.1, hcb]) hn
  refine ⟨hnodup, ?_⟩
  have hcut := chain_cut hfront hback []
  rw [List.append_nil] at hcut
  rw [hcut, List.nil_append, List.isChain_append_cons_cons]
  exact ⟨hleft', ⟨by simp [Links.unlink, ha, hprev.2, hnext.1],
    by simp [Links.unlink, hprev.2, hnext.1]⟩, hright'⟩

section Join
variable {t a y z : ν} {ys front mid rest : List ν}

/-- The pointers that a join changes in the cycle of `s` are at its end. -/
theorem chain_join_left (h : IsCycle l s xs) (hapart : ∀ c ∈ s :: xs, c ∉ ys)
    (ha : s :: xs = front ++ [a]) (hy : y ∈ ys) (hz : z ∈ ys) :
    (s :: xs).IsChain (l.join s a y z).Linked := by
  have hchain := h.chain
  rw [← List.cons_append, List.isChain_append] at hchain
  -- The join stores to `next` of `a` and `z` and to `prev` of `s` and `y`.
  refine chain_congr hchain.1 (fun c hc => ?_) fun c hc => ?_
  · rw [ha, List.dropLast_concat] at hc
    have hca : c ≠ a := by
      rintro rfl
      have hnodup := h.nodup
      rw [ha, List.nodup_append'] at hnodup
      exact hnodup.2.2 hc (by simp)
    have hcz : c ≠ z := by
      rintro rfl
      exact hapart c (by rw [ha]; simp [hc]) hz
    simp [Links.join, hca, hcz]
  · rw [List.tail_cons] at hc
    have hcs : c ≠ s := by
      rintro rfl
      exact (List.nodup_cons.mp h.nodup).1 hc
    have hcy : c ≠ y := by
      rintro rfl
      exact hapart c (by simp [hc]) hy
    simp [Links.join, hcs, hcy]

/-- The pointers that a join changes in the members of the cycle of `t` are at both ends. -/
theorem chain_join_right (ht : IsCycle l t ys) (hs : s ∉ ys) (ha : a ∉ ys)
    (hy : ys = y :: rest) (hz : ys = mid ++ [z]) : ys.IsChain (l.join s a y z).Linked := by
  have hys : ys.Nodup := (List.nodup_cons.mp ht.nodup).2
  have hchain := ht.chain
  rw [← List.singleton_append, List.isChain_append, List.isChain_append] at hchain
  -- the two pointers that change belong to the ends, which are not in between
  refine chain_congr hchain.2.1.1 (fun c hc => ?_) fun c hc => ?_
  · have hca : c ≠ a := by
      rintro rfl
      exact ha (List.mem_of_mem_dropLast hc)
    have hcz : c ≠ z := by
      rintro rfl
      rw [hz, List.dropLast_concat] at hc
      rw [hz, List.nodup_append'] at hys
      exact hys.2.2 hc (by simp)
    simp [Links.join, hca, hcz]
  · have hcs : c ≠ s := by
      rintro rfl
      exact hs (List.mem_of_mem_tail hc)
    have hcy : c ≠ y := by
      rintro rfl
      rw [hy, List.tail_cons] at hc
      rw [hy, List.nodup_cons] at hys
      exact hys.1 hc
    simp [Links.join, hcs, hcy]

/-- The members of another cycle at the end of a cycle. -/
theorem join (h : IsCycle l s xs) (ht : IsCycle l t ys) (hapart : ∀ c ∈ s :: xs, c ∉ ys)
    (ha : s :: xs = front ++ [a]) (hy : ys = y :: rest) (hz : ys = mid ++ [z]) :
    IsCycle (l.join s a y z) s (xs ++ ys) := by
  have hmemA : a ∈ s :: xs := by rw [ha]; simp
  have hmemY : y ∈ ys := by rw [hy]; simp
  have hmemZ : z ∈ ys := by rw [hz]; simp
  have hays : y ≠ s := by
    rintro rfl
    exact hapart y (by simp) hmemY
  have hza : z ≠ a := by
    rintro rfl
    exact hapart z hmemA hmemZ
  constructor
  · show ((s :: xs) ++ ys).Nodup
    exact h.nodup.append (List.nodup_cons.mp ht.nodup).2 hapart
  -- The chain has three parts, with a link from each to the next.
  · rw [List.append_assoc, ← List.cons_append, List.isChain_append, List.isChain_append]
    refine ⟨h.chain_join_left hapart ha hmemY hmemZ,
      ⟨ht.chain_join_right (hapart s (by simp)) (hapart a hmemA) hy hz, .singleton s, ?_⟩, ?_⟩
    · -- from the last member back to the sentinel
      intro c hc d hd
      rw [hz, List.getLast?_concat] at hc
      cases hc
      cases hd
      exact ⟨by simp [Links.join, hza], by simp [Links.join]⟩
    · -- from the old end to the first member
      intro c hc d hd
      rw [ha, List.getLast?_concat] at hc
      rw [hy] at hd
      cases hc
      cases hd
      exact ⟨by simp [Links.join], by simp [Links.join, hays]⟩

end Join

end IsCycle
end Cycle

/-! ### Walks -/

section Walk
variable {ν : Type*} {step : ν → ν} {stop n : ν} {xs : List ν}

/-- The loop `for (; n != stop; n = step(n))` visits `xs` and then stops. -/
inductive Visits (step : ν → ν) (stop : ν) : ν → List ν → Prop where
  | stop : Visits step stop stop []
  | visit {n : ν} {xs : List ν} : n ≠ stop → Visits step stop (step n) xs →
      Visits step stop n (n :: xs)

/-- A chain of steps that ends at `stop` is a walk, where `stop` does not come earlier. -/
theorem visits_of_chain {a : ν} (hchain : (a :: (xs ++ [stop])).IsChain (fun x y => step x = y))
    (hstop : stop ∉ xs) : Visits step stop (step a) xs := by
  induction xs generalizing a with
  | nil =>
      rw [List.nil_append, List.isChain_pair] at hchain
      rw [hchain]
      exact .stop
  | cons x xs ih =>
      rw [List.cons_append, List.isChain_cons_cons] at hchain
      obtain ⟨hax, hrest⟩ := hchain
      rw [List.mem_cons, not_or] at hstop
      rw [hax]
      exact .visit (Ne.symm hstop.1) (ih hrest hstop.2)

/-- A walk starts at its first node, or at the stop where it is empty. -/
theorem Visits.start_eq (h : Visits step stop n xs) : n = xs.headD stop := by
  cases h with
  | stop => rfl
  | visit hne hrest => rfl

/-- The rest of a walk is a walk. -/
theorem Visits.tail {x : ν} (h : Visits step stop n (x :: xs)) : Visits step stop (step x) xs := by
  cases h with
  | visit hne hrest => exact hrest

variable [DecidableEq ν]

/-- The nodes that a walk meets before it stops. -/
def follow (step : ν → ν) (stop : ν) : Nat → ν → Option (List ν)
  | 0, _ => none
  | fuel + 1, n =>
      if n = stop then some [] else (follow step stop fuel (step n)).map (n :: ·)

/-- With enough fuel, following the steps gives the nodes of the walk. -/
theorem Visits.follow_eq (h : Visits step stop n xs) {fuel : Nat} (hfuel : xs.length < fuel) :
    follow step stop fuel n = some xs := by
  induction h generalizing fuel with
  | stop =>
      cases fuel with
      | zero => simp at hfuel
      | succ fuel => simp [follow]
  | visit hne hrest ih =>
      cases fuel with
      | zero => simp at hfuel
      | succ fuel =>
          rw [List.length_cons] at hfuel
          simp [follow, hne, ih (by omega : _ < fuel)]

end Walk

namespace IsCycle
variable {ν : Type*} {l : Links ν} {s : ν} {xs : List ν}

/-- Forward from the sentinel, a cycle is a walk over its sequence. -/
theorem visits_next (h : IsCycle l s xs) : Visits l.next s (l.next s) xs :=
  visits_of_chain (h.chain.imp fun _ _ hab => hab.1) (List.nodup_cons.mp h.nodup).1

/-- Backward from the sentinel, a cycle is a walk over the reversed sequence. -/
theorem visits_prev (h : IsCycle l s xs) : Visits l.prev s (l.prev s) xs.reverse := by
  refine visits_of_chain ?_ ?_
  · have hback : (s :: (xs ++ [s])).IsChain (fun a b => l.prev b = a) :=
      h.chain.imp fun _ _ hab => hab.2
    have hrev := List.isChain_reverse.mpr hback
    simpa using hrev
  · rw [List.mem_reverse]
    exact (List.nodup_cons.mp h.nodup).1

/-- The first node of a cycle, the sentinel itself on an empty one. -/
theorem next_eq (h : IsCycle l s xs) : l.next s = xs.headD s := h.visits_next.start_eq

end IsCycle

/-! ### Sequences -/

section Sequence
variable {ν : Type*} [DecidableEq ν] {a n : ν} {pre post xs : List ν}

/-- Put `n` right after `a`. -/
def putAfter (a n : ν) : List ν → List ν
  | [] => []
  | x :: xs => if x = a then x :: n :: xs else x :: putAfter a n xs

/-- Put `n` right before `b`. -/
def putBefore (b n : ν) : List ν → List ν
  | [] => []
  | x :: xs => if x = b then n :: x :: xs else x :: putBefore b n xs

/-- The new node stands behind the first occurrence of `a`. -/
theorem putAfter_append (h : a ∉ pre) :
    putAfter a n (pre ++ a :: post) = pre ++ a :: n :: post := by
  induction pre with
  | nil => simp [putAfter]
  | cons x pre ih =>
      rw [List.mem_cons, not_or] at h
      simp [putAfter, Ne.symm h.1, ih h.2]

/-- The new node stands before the first occurrence of `a`. -/
theorem putBefore_append (h : a ∉ pre) :
    putBefore a n (pre ++ a :: post) = pre ++ n :: a :: post := by
  induction pre with
  | nil => simp [putBefore]
  | cons x pre ih =>
      rw [List.mem_cons, not_or] at h
      simp [putBefore, Ne.symm h.1, ih h.2]

/-- A sequence without `a` is left alone. -/
theorem putAfter_of_not_mem (h : a ∉ xs) : putAfter a n xs = xs := by
  induction xs with
  | nil => rfl
  | cons x xs ih =>
      rw [List.mem_cons, not_or] at h
      simp [putAfter, Ne.symm h.1, ih h.2]

/-- A sequence without `a` is left alone. -/
theorem putBefore_of_not_mem (h : a ∉ xs) : putBefore a n xs = xs := by
  induction xs with
  | nil => rfl
  | cons x xs ih =>
      rw [List.mem_cons, not_or] at h
      simp [putBefore, Ne.symm h.1, ih h.2]

end Sequence

/-! ### Collections of lists -/

/-- The sentinels and the nodes of a collection of lists: distinct objects, none of them at
the null pointer. -/
structure Objects (ν : Type*) (null : ν) where
  heads : List ν
  nodes : List ν
  apart : heads.Disjoint nodes
  null_not_head : null ∉ heads
  null_not_node : null ∉ nodes

section Collection
variable {ν : Type*} {null : ν} {objects : Objects ν null} {l l' : Links ν} {seq : ν → List ν}

/-- `n` is on one of the lists. -/
def OnSome (objects : Objects ν null) (seq : ν → List ν) (n : ν) : Prop :=
  ∃ s ∈ objects.heads, n ∈ seq s

instance [DecidableEq ν] (n : ν) : Decidable (OnSome objects seq n) :=
  inferInstanceAs (Decidable (∃ s ∈ objects.heads, n ∈ seq s))

/-- The memory holds the sequence `seq s` on the cycle of each sentinel `s`, and a null
`next` in each node that is on no list. -/
structure Coherent (objects : Objects ν null) (l : Links ν) (seq : ν → List ν) : Prop where
  cycle : ∀ s ∈ objects.heads, IsCycle l s (seq s)
  apart : ∀ s ∈ objects.heads, ∀ t ∈ objects.heads, s ≠ t → (seq s).Disjoint (seq t)
  member : ∀ s ∈ objects.heads, ∀ n ∈ seq s, n ∈ objects.nodes
  off : ∀ n ∈ objects.nodes, ¬ OnSome objects seq n → l.next n = null
  outside : ∀ s ∉ objects.heads, seq s = []

namespace Coherent

/-- The cycles of two sentinels share no node. -/
theorem not_mem_cycle (h : Coherent objects l seq) {s t c : ν} (hs : s ∈ objects.heads)
    (ht : t ∈ objects.heads) (hne : t ≠ s) (hc : c ∈ t :: seq t) : c ∉ s :: seq s := by
  have hhead : ∀ {u v}, u ∈ objects.heads → v ∈ objects.heads → u ∉ seq v := by
    intro u v hu hv hmem
    exact objects.apart hu (h.member v hv u hmem)
  intro hmem
  rcases List.mem_cons.mp hmem with rfl | hcs
  · rcases List.mem_cons.mp hc with rfl | hct
    · exact hne rfl
    · exact hhead hs ht hct
  · rcases List.mem_cons.mp hc with rfl | hct
    · exact hhead ht hs hcs
    · exact h.apart t ht s hs hne hct hcs

/-- A list has at most as many members as there are nodes. -/
theorem length_le (h : Coherent objects l seq) {s : ν} (hs : s ∈ objects.heads) :
    (seq s).length ≤ objects.nodes.length :=
  (List.subperm_of_subset (List.nodup_cons.mp (h.cycle s hs).nodup).2 (h.member s hs)).length_le

/-- No sentinel and no node on a list is the null pointer. -/
theorem ne_null_of_mem_cycle (h : Coherent objects l seq) {s c : ν} (hs : s ∈ objects.heads)
    (hc : c ∈ s :: seq s) : c ≠ null := by
  rintro rfl
  rcases List.mem_cons.mp hc with rfl | hmem
  · exact objects.null_not_head hs
  · exact objects.null_not_node (h.member s hs c hmem)

/-- The mark of a node that is on no list is exact. -/
theorem next_ne_null_iff (h : Coherent objects l seq) {n : ν} (hn : n ∈ objects.nodes) :
    l.next n ≠ null ↔ OnSome objects seq n := by
  constructor
  · intro hne
    by_contra hoff
    exact hne (h.off n hn hoff)
  · rintro ⟨s, hs, hmem⟩
    obtain ⟨pre, post, hseq⟩ := List.append_of_mem hmem
    obtain ⟨a, b, hgap⟩ := exists_gap s pre post
    have hcycle := h.cycle s hs
    rw [hseq] at hcycle
    rw [(hcycle.linked_of_mem hgap).2.1]
    apply h.ne_null_of_mem_cycle hs
    have hb := hgap.mem.2
    rw [hseq]
    simp only [List.mem_cons, List.mem_append] at hb ⊢
    tauto

/-- A node that is on no list is not on the cycle of a sentinel. -/
theorem not_mem_cycle_of_off {n s : ν} (hn : n ∈ objects.nodes)
    (hs : s ∈ objects.heads) (hoff : ¬ OnSome objects seq n) : n ∉ s :: seq s := by
  intro hcycle
  rcases List.mem_cons.mp hcycle with rfl | hmem
  · exact objects.apart hs hn
  · exact hoff ⟨s, hs, hmem⟩

variable [DecidableEq ν] {s a n b : ν} {pre post : List ν}

/-- A change of one list: its cycle is right again, the other cycles are as before, the new
members were on no list, and the nodes that come off are marked. -/
theorem update (h : Coherent objects l seq) (hs : s ∈ objects.heads) {ys : List ν}
    (hcycle : IsCycle l' s ys)
    (hsame : ∀ t ∈ objects.heads, t ≠ s → ∀ c ∈ t :: seq t,
      l'.next c = l.next c ∧ l'.prev c = l.prev c)
    (hnew : ∀ c ∈ ys, c ∈ seq s ∨ c ∈ objects.nodes ∧ ¬ OnSome objects seq c)
    (hoff : ∀ c ∈ objects.nodes, c ∉ ys → c ∈ seq s ∨ ¬ OnSome objects seq c → l'.next c = null) :
    Coherent objects l' (Function.update seq s ys) := by
  -- a new member of the list was on none of the others
  have hfresh : ∀ t ∈ objects.heads, t ≠ s → ys.Disjoint (seq t) := by
    intro t ht hts c hc hct
    rcases hnew c hc with hold | hnone
    · exact h.apart t ht s hs hts hct hold
    · exact hnone.2 ⟨t, ht, hct⟩
  constructor
  · intro t ht
    by_cases hts : t = s
    · subst hts
      rw [Function.update_self]
      exact hcycle
    · rw [Function.update_of_ne hts]
      exact (h.cycle t ht).congr (hsame t ht hts)
  · intro t ht u hu htu
    by_cases hts : t = s
    · subst hts
      rw [Function.update_self, Function.update_of_ne (Ne.symm htu)]
      exact hfresh u hu (Ne.symm htu)
    · rw [Function.update_of_ne hts]
      by_cases hus : u = s
      · subst hus
        rw [Function.update_self]
        exact (hfresh t ht hts).symm
      · rw [Function.update_of_ne hus]
        exact h.apart t ht u hu htu
  · intro t ht c hc
    by_cases hts : t = s
    · subst hts
      rw [Function.update_self] at hc
      rcases hnew c hc with hold | hnone
      · exact h.member t ht c hold
      · exact hnone.1
    · rw [Function.update_of_ne hts] at hc
      exact h.member t ht c hc
  · intro c hc hnone
    apply hoff c hc
    · intro hmem
      exact hnone ⟨s, hs, by rwa [Function.update_self]⟩
    · by_contra hcontra
      obtain ⟨hns, hsome⟩ := not_or.mp hcontra
      obtain ⟨t, ht, hmem⟩ := not_not.mp hsome
      have hts : t ≠ s := by
        rintro rfl
        exact hns hmem
      exact hnone ⟨t, ht, by rwa [Function.update_of_ne hts]⟩
  · intro t ht
    have hts : t ≠ s := fun heq => ht (by rw [heq]; exact hs)
    rw [Function.update_of_ne hts]
    exact h.outside t ht

/-- A new node in a gap of one of the lists. -/
theorem splice (h : Coherent objects l seq) (hs : s ∈ objects.heads) (hseq : seq s = pre ++ post)
    (hgap : Gap s pre post a b) (hn : n ∈ objects.nodes) (hoff : ¬ OnSome objects seq n) :
    Coherent objects (l.splice a n b) (Function.update seq s (pre ++ n :: post)) := by
  have ha : a ∈ s :: seq s := hseq ▸ hgap.mem.1
  have hb : b ∈ s :: seq s := hseq ▸ hgap.mem.2
  have hcycle := h.cycle s hs
  have hnew := not_mem_cycle_of_off hn hs hoff
  rw [hseq] at hcycle hnew
  apply h.update hs (hcycle.splice hgap hnew)
  · -- the pointers that change belong to `n` or to the cycle of `s`
    intro t ht hts c hc
    have hcs := h.not_mem_cycle hs ht hts hc
    have hca : c ≠ a := fun heq => hcs (heq ▸ ha)
    have hcb : c ≠ b := fun heq => hcs (heq ▸ hb)
    have hcn : c ≠ n := fun heq => not_mem_cycle_of_off hn ht hoff (heq ▸ hc)
    simp [Links.splice, hca, hcb, hcn]
  · intro c hc
    rw [hseq]
    simp only [List.mem_append, List.mem_cons] at hc ⊢
    rcases hc with hc | rfl | hc
    · exact Or.inl (Or.inl hc)
    · exact Or.inr ⟨hn, hoff⟩
    · exact Or.inl (Or.inr hc)
  · intro c hc hnot hold
    simp only [List.mem_append, List.mem_cons, not_or] at hnot
    have hcold : ¬ OnSome objects seq c := by
      apply hold.resolve_left
      rw [hseq, List.mem_append]
      tauto
    have hca : c ≠ a := fun heq => not_mem_cycle_of_off hc hs hcold (heq ▸ ha)
    simpa [Links.splice, hca, hnot.2.1] using h.off c hc hcold

/-- A node taken off its list. -/
theorem unlink (h : Coherent objects l seq) (hs : s ∈ objects.heads)
    (hseq : seq s = pre ++ n :: post) :
    Coherent objects (l.unlink n null) (Function.update seq s (pre ++ post)) := by
  have hcycle := h.cycle s hs
  rw [hseq] at hcycle
  obtain ⟨a, b, hgap⟩ := exists_gap s pre post
  obtain ⟨hprev, hnext⟩ := hcycle.linked_of_mem hgap
  have hsub : ∀ c ∈ s :: (pre ++ post), c ∈ s :: seq s := by
    intro c hc
    rw [hseq]
    simp only [List.mem_cons, List.mem_append] at hc ⊢
    tauto
  have hn : n ∈ seq s := by rw [hseq]; simp
  apply h.update hs (hcycle.unlink null)
  · intro t ht hts c hc
    have hcs := h.not_mem_cycle hs ht hts hc
    have hca : c ≠ a := fun heq => hcs (heq ▸ hsub a hgap.mem.1)
    have hcb : c ≠ b := fun heq => hcs (heq ▸ hsub b hgap.mem.2)
    have hcn : c ≠ n := fun heq => hcs (heq ▸ List.mem_cons_of_mem s hn)
    simp [Links.unlink, hprev.2, hnext.1, hca, hcb, hcn]
  · intro c hc
    rw [hseq]
    simp only [List.mem_append, List.mem_cons] at hc ⊢
    tauto
  · intro c hc hnot hold
    by_cases hcn : c = n
    · simp [Links.unlink, hcn]
    · have hcold : ¬ OnSome objects seq c := by
        apply hold.resolve_left
        rw [hseq]
        simp only [List.mem_append, List.mem_cons] at hnot ⊢
        tauto
      have hca : c ≠ a := fun heq =>
        not_mem_cycle_of_off hc hs hcold (heq ▸ hsub a hgap.mem.1)
      simpa [Links.unlink, hprev.2, hca, hcn] using h.off c hc hcold

/-- A change of one sequence only, for an operation that leaves sequences without `n`
alone. -/
theorem map_eq_update (h : Coherent objects l seq) (hs : s ∈ objects.heads) (hmem : n ∈ seq s)
    {f : List ν → List ν} (hf : ∀ xs, n ∉ xs → f xs = xs) :
    (fun t => f (seq t)) = Function.update seq s (f (seq s)) := by
  funext t
  by_cases hts : t = s
  · subst hts
    rw [Function.update_self]
  · rw [Function.update_of_ne hts]
    apply hf
    by_cases ht : t ∈ objects.heads
    · exact fun hmt => h.apart t ht s hs hts hmt hmem
    · rw [h.outside t ht]
      exact List.not_mem_nil

end Coherent
end Collection

end MyTestFiles.Lib
