import MyTestFiles.Lib.Loop

/-!
# `MyTestFiles.Lib.Chain`: singly linked chains

A heap of nodes is seen through `next : α → Option α`, which is `none` for an address that
is not allocated. `Chain null next a l` says that the nodes of `l`, in order, are what a
walk from `a` meets before `null`. `searchPass` is the usual loop that looks for a node and
keeps the one before it; `search_spec` says where it stops, and `Chain.unlink` what taking
that node out does.

A chain has no node twice, because every node has one successor and the chain ends
(`Chain.nodup`). So a chain determines its nodes, and a walk along it ends after as many steps as
it has nodes.

* `Chain.congr` is the frame rule of chains, and `Chain.unlink` and `Chain.replaceTail` are the
  two changes of links that programs make.
* `search_spec` is stated with the list in two parts, the nodes that were passed and the rest.
  Insertion and removal both start from such a split, so the loop invariant of a search is proved
  once here.
-/

set_option autoImplicit false

namespace MyTestFiles.Lib

section Chain
variable {α : Type*} {null : α} {next next' : α → Option α} {a b p q r : α} {l : List α}

/-- The nodes of the list are met in order on the walk from an address to `null`. -/
inductive Chain (null : α) (next : α → Option α) : α → List α → Prop where
  | nil : Chain null next null []
  | cons {a b : α} {l : List α} (hne : a ≠ null) (hnext : next a = some b)
      (hrest : Chain null next b l) : Chain null next a (a :: l)

/-- A chain depends only on the links of its own nodes. -/
theorem Chain.congr (h : Chain null next a l) (hsame : ∀ x ∈ l, next' x = next x) :
    Chain null next' a l := by
  induction h with
  | nil => exact .nil
  | cons hne hnext _ ih =>
      refine .cons hne ?_ (ih fun x hx => hsame x (by simp [hx]))
      rw [hsame _ (by simp), hnext]

/-- A walk from an address meets one list of nodes. -/
theorem Chain.unique {l' : List α} (h : Chain null next a l) (h' : Chain null next a l') :
    l = l' := by
  induction h generalizing l' with
  | nil =>
      cases h' with
      | nil => rfl
      | cons hne _ _ => exact absurd rfl hne
  | cons hne hnext _ ih =>
      cases h' with
      | nil => exact absurd rfl hne
      | cons _ hnext' hrest' =>
          rw [hnext] at hnext'
          cases hnext'
          rw [ih hrest']

/-- A walk that passes through a node goes on from it. -/
theorem Chain.suffix (h : Chain null next a l) (hp : p ∈ l) :
    ∃ pre post, l = pre ++ p :: post ∧ Chain null next p (p :: post) := by
  induction h with
  | nil => simp at hp
  | @cons x b l hne hnext hrest ih =>
      rcases List.mem_cons.mp hp with rfl | hmem
      · exact ⟨[], l, rfl, .cons hne hnext hrest⟩
      · obtain ⟨pre, post, rfl, hpost⟩ := ih hmem
        exact ⟨x :: pre, post, rfl, hpost⟩

/-- No node of a chain is `null`. -/
theorem Chain.ne_null (h : Chain null next a l) (hp : p ∈ l) : p ≠ null := by
  obtain ⟨pre, post, -, hpost⟩ := h.suffix hp
  cases hpost with
  | cons hne _ _ => exact hne

/-- A chain never meets a node twice. -/
theorem Chain.nodup (h : Chain null next a l) : l.Nodup := by
  induction h with
  | nil => exact List.nodup_nil
  | @cons x b l hne hnext hrest ih =>
      refine List.nodup_cons.mpr ⟨fun hx => ?_, ih⟩
      -- a second visit would start the same walk again
      obtain ⟨pre, post, rfl, hagain⟩ := hrest.suffix hx
      have heq := (Chain.cons hne hnext hrest).unique hagain
      have hlen := congrArg List.length heq
      simp at hlen
      omega

/-- The link of a node skips its successor. -/
theorem Chain.unlink {pre post : List α} (h : Chain null next a (pre ++ p :: q :: post))
    (hq : next q = some r) (hp : next' p = some r)
    (hsame : ∀ x ∈ pre ++ post, next' x = next x) :
    Chain null next' a (pre ++ p :: post) := by
  induction pre generalizing a with
  | nil =>
      cases h with
      | cons hne _ hrest =>
          cases hrest with
          | cons _ hnext hpost =>
              rw [hq] at hnext
              cases hnext
              exact .cons hne hp (hpost.congr fun x hx => hsame x (by simpa using hx))
  | cons x pre ih =>
      cases h with
      | cons hne hnext hrest =>
          refine .cons hne ?_ (ih hrest fun y hy => hsame y (by simp_all))
          rw [hsame _ (by simp), hnext]

/-- From each of its nodes on the rest of a chain is a chain. -/
theorem Chain.drop {pre post : List α} (h : Chain null next a (pre ++ p :: post)) :
    Chain null next p (p :: post) := by
  induction pre generalizing a with
  | nil =>
      cases h with
      | cons hne hnext hrest => exact .cons hne hnext hrest
  | cons x pre ih =>
      cases h with
      | cons _ _ hrest => exact ih hrest

/-- A chain may go on from its last node, or from its start where it is empty, with another
chain. -/
theorem Chain.replaceTail {pre post post' : List α} (h : Chain null next a (pre ++ post))
    (hsame : ∀ x ∈ pre.dropLast, next' x = next x)
    (hlast : ∀ x, pre.getLast? = some x → next' x = some b) (hrest : Chain null next' b post') :
    Chain null next' (if pre = [] then b else a) (pre ++ post') := by
  induction pre generalizing a with
  | nil => exact hrest
  | cons x pre ih =>
      cases h with
      | @cons _ c _ hne hnext htail =>
          rw [if_neg (List.cons_ne_nil x pre)]
          refine .cons hne ?_ (ih (a := c) htail (fun y hy => hsame y ?_) fun y hy => hlast y ?_)
          · cases pre with
            | nil => exact hlast x rfl
            | cons y pre =>
                rw [hsame x (by simp), hnext, if_neg (List.cons_ne_nil y pre)]
          · cases pre with
            | nil => simp at hy
            | cons z pre => exact List.mem_cons_of_mem x hy
          · cases pre with
            | nil => simp at hy
            | cons z pre => simpa using hy

end Chain

/-! ### Searching a chain -/

section Search
variable {α : Type} [DecidableEq α] {null : α} {next : α → Option α}
  {found : α → Option Bool} {a : α} {l : List α}

/-- `while (p != NULL) { if (found) break; prev = p; p = next; }`, on `(prev, p)`. -/
def searchPass (null : α) (next : α → Option α) (found : α → Option Bool) :
    α × α → Option (Pass (α × α) (α × α))
  | (prev, p) =>
      if p = null then some (.done (prev, p))
      else do
        let stop ← found p
        if stop then some (.done (prev, p))
        else do
          let after ← next p
          some (.again (p, after))

/-- The search stops at the first node of the chain that is found, with the node before it,
or at the end of the chain. -/
theorem search_spec (prev : α) {f : α → Bool} (h : Chain null next a l)
    (hfound : ∀ p ∈ l, found p = some (f p)) {fuel : Nat} (hfuel : l.length < fuel) :
    ∃ prev' q, loop (searchPass null next found) fuel (prev, a) = some (prev', q) ∧
      ((q = null ∧ ∀ p ∈ l, f p = false) ∨
        ∃ pre post, l = pre ++ q :: post ∧ (∀ p ∈ pre, f p = false) ∧ f q = true ∧
          q ≠ null ∧ prev' = pre.getLastD prev) := by
  obtain ⟨fuel, rfl⟩ : ∃ more, fuel = more + 1 := ⟨fuel - 1, by omega⟩
  induction h generalizing fuel prev with
  | nil => exact ⟨prev, null, loop_of_done (by simp [searchPass]) fuel, .inl ⟨rfl, by simp⟩⟩
  | @cons x b l hne hnext hrest ih =>
      have hx := hfound x (by simp)
      cases hstop : f x with
      | true =>
          refine ⟨prev, x, loop_of_done (by simp [searchPass, hne, hx, hstop]) fuel,
            .inr ⟨[], l, rfl, by simp, hstop, hne, rfl⟩⟩
      | false =>
          obtain ⟨fuel, rfl⟩ : ∃ more, fuel = more + 1 :=
            ⟨fuel - 1, by simp only [List.length_cons] at hfuel; omega⟩
          obtain ⟨prev', q, hrun, hq⟩ := ih x (fun p hp => hfound p (by simp [hp])) fuel
            (by simp only [List.length_cons] at hfuel; omega)
          -- this node only comes in front of the nodes that the rest of the search passes
          refine ⟨prev', q, ?_, ?_⟩
          · have hpass : searchPass null next found (prev, x) = some (.again (x, b)) := by
              simp [searchPass, hne, hx, hstop, hnext]
            rw [loop_of_again hpass, hrun]
          · rcases hq with ⟨rfl, hnone⟩ | ⟨pre, post, rfl, hpre, hq, hqne, rfl⟩
            · refine .inl ⟨rfl, fun p hp => ?_⟩
              rcases List.mem_cons.mp hp with rfl | hp
              · exact hstop
              · exact hnone p hp
            · refine .inr ⟨x :: pre, post, rfl, fun p hp => ?_, hq, hqne, ?_⟩
              · rcases List.mem_cons.mp hp with rfl | hp
                · exact hstop
                · exact hpre p hp
              · cases pre with
                | nil => rfl
                | cons y pre => simp [List.getLastD]

/-- Where the search stops, in terms of the list alone. -/
theorem search_eq (prev : α) {f : α → Bool} (h : Chain null next a l)
    (hfound : ∀ p ∈ l, found p = some (f p)) {fuel : Nat} (hfuel : l.length < fuel) :
    loop (searchPass null next found) fuel (prev, a) =
      some ((l.takeWhile fun p => !f p).getLastD prev, (l.dropWhile fun p => !f p).headD null) := by
  obtain ⟨fuel, rfl⟩ : ∃ more, fuel = more + 1 := ⟨fuel - 1, by omega⟩
  -- The pointer before the current one is what the search passes over last.
  induction h generalizing fuel prev with
  | nil => exact loop_of_done (by simp [searchPass]) fuel
  | @cons x b l hne hnext hrest ih =>
      have hx := hfound x (by simp)
      cases hstop : f x with
      | true =>
          rw [loop_of_done (r := (prev, x)) (by simp [searchPass, hne, hx, hstop]) fuel]
          simp [hstop]
      | false =>
          obtain ⟨fuel, rfl⟩ : ∃ more, fuel = more + 1 :=
            ⟨fuel - 1, by simp only [List.length_cons] at hfuel; omega⟩
          have hpass : searchPass null next found (prev, x) = some (.again (x, b)) := by
            simp [searchPass, hne, hx, hstop, hnext]
          rw [loop_of_again hpass, ih x (fun p hp => hfound p (by simp [hp])) fuel
            (by simp only [List.length_cons] at hfuel; omega)]
          simp only [List.takeWhile_cons, List.dropWhile_cons, hstop, Bool.not_false, if_true,
            List.getLastD_cons]

end Search

end MyTestFiles.Lib
