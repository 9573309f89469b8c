import MyTestFiles.Proofs.Multimer.Simulation

/-!
# `MyTestFiles.Proofs.Multimer.Runs`: the package over whole runs

`run_spec`: a run of allowed operations does not fault, and its links are those of the lists
that the operations on `Table` give. `allocated_isGreatest`: the elements that the package has
allocated are as many as were ever pending at once.

* An operation is allowed where its times are normal, a store goes to an element of the package,
  and `malloc` answers an element that is not in use when a new one is needed. Nothing is asked of
  the order of the calls.
* An element is never freed. It goes from the queue to the free list and back, so the number of
  elements only grows, and only when all of them are pending. That is why it is the peak of the
  pending timers.
* `timer_get` calls handlers that may set and cancel timers. The loop with its handlers is a run
  of single operations (`loop_isRun`), so what holds of all runs holds of it.

The peak is over all prefixes of the run, not only over its end. The lower bound holds because
pending timers have different elements, and the upper bound because a new element is only asked
for when the free list is empty.
-/

set_option autoImplicit false

namespace MyTestFiles.Proofs.Multimer

open MyTestFiles.Lib MyTestFiles.Multimer

/-- The lists after some operations. -/
def after (ops : List Op) : Table := ops.foldl (fun T op => (T.step op).1) Table.start

/-- The tables after a run with one more operation. -/
theorem after_concat (ops : List Op) (op : Op) : after (ops ++ [op]) = ((after ops).step op).1 := by
  simp [after]

/-- At the start both queues are empty. -/
theorem start_represents : Represents Timers.start Table.start [] where
  queue := .nil
  free := .nil
  disjoint := List.disjoint_nil_left _
  queue_held := List.disjoint_nil_left _
  free_held := List.disjoint_nil_left _
  heap p := by simp [Timers.start, Table.start]

/-- The empty tables are sound. -/
theorem start_sound : Table.start.Sound where
  sorted := .nil
  clients := .nil
  time p hp := by simp [Table.start] at hp
  interval p hp := by simp [Table.start] at hp

/-- A run from lists that the links represent. -/
theorem run_from {t : Timers} {T : Table} {ops : List Op} (h : Represents t T [] ∧ T.Sound)
    (hallowed : RunMeets step Op.Allowed t ops) :
    ∃ t' os, run step t ops = some (t', os) ∧
      Represents t' (ops.foldl (fun T op => (T.step op).1) T) [] ∧
      (ops.foldl (fun T op => (T.step op).1) T).Sound := by
  induction ops generalizing t T with
  | nil => exact ⟨t, [], rfl, h⟩
  | cons op ops ih =>
      obtain ⟨hop, hrest⟩ := hallowed
      obtain ⟨t₁, ht₁, h₁⟩ := step_simulates t T op h hop
      obtain ⟨t', os, hrun, h'⟩ := ih h₁ (hrest t₁ _ ht₁)
      exact ⟨t', (T.step op).2 :: os, run_cons_of_step ht₁ hrun, h'⟩

/-- Whatever allowed operations the callers and the event handlers perform, the package does
not fault: no assertion fails, and no pointer is dangling. In the end every element is on one
of the two queues, the timer queue is in time order, and no client has two timers. -/
theorem run_spec {ops : List Op} (hallowed : RunMeets step Op.Allowed Timers.start ops) :
    ∃ t os, run step Timers.start ops = some (t, os) ∧ Represents t (after ops) [] ∧
      (after ops).Sound :=
  run_from ⟨start_represents, start_sound⟩ hallowed

/-! ### `timer_get` as a run -/

/-- The call of an event handler that a result stands for. -/
def called : Returned → Option (NotifyFunc × NotifyClient)
  | .get (.call func client) => some (func, client)
  | _ => none

/-- What `timer_get` does with its handlers is a run of passes and of operations of the handlers.
-/
theorem loop_isRun {handlers : Handlers} {clock : Nat → Timeval} {fuel : Nat} {g g' : Getting}
    {out : Option Timeval} (hrun : loop (timerGetBody handlers clock) fuel g = some (g', out)) :
    ∃ ops os calls, run step g.timers ops = some (g'.timers, os) ∧ g'.calls = g.calls ++ calls ∧
      calls.Sublist (os.filterMap called) := by
  induction fuel generalizing g with
  | zero => simp [loop] at hrun
  | succ fuel ih =>
      cases hpass : g.timers.timerGetPass (clock g.reads) with
      | none => simp [loop, timerGetBody, hpass] at hrun
      | some r =>
          obtain ⟨t₁, pass⟩ := r
          have hstep : step g.timers (.get (clock g.reads)) = some (t₁, .get pass) := by
            simp [step, hpass]
          cases pass with
          | empty =>
              simp [loop, timerGetBody, hpass] at hrun
              obtain ⟨rfl, -⟩ := hrun
              exact ⟨[_], _, [], run_cons_of_step hstep rfl, by simp, List.nil_sublist _⟩
          | timeout timeout =>
              simp [loop, timerGetBody, hpass] at hrun
              obtain ⟨rfl, -⟩ := hrun
              exact ⟨[_], _, [], run_cons_of_step hstep rfl, by simp, List.nil_sublist _⟩
          | call func client =>
              cases hhandler : run step t₁ (handlers func client t₁) with
              | none => simp [loop, timerGetBody, hpass, hhandler] at hrun
              | some r =>
                  obtain ⟨t₂, os₁⟩ := r
                  -- the pass, then what the handler does, then the passes that follow
                  have hbody : timerGetBody handlers clock g = some (.again
                      ⟨t₂, g.reads + 1, g.calls ++ [(func, client)]⟩) := by
                    simp [timerGetBody, hpass, hhandler]
                  rw [loop_of_again hbody] at hrun
                  obtain ⟨ops, os, calls, hrest, hcalls, hsub⟩ := ih hrun
                  refine ⟨_ :: (handlers func client t₁ ++ ops), _, (func, client) :: calls,
                    run_cons_of_step hstep (run_append hhandler hrest), by simp [hcalls], ?_⟩
                  rw [List.filterMap_cons_some (f := called) rfl, List.filterMap_append]
                  exact (hsub.trans (List.sublist_append_right _ _)).cons_cons _

/-- Whatever the handlers do, `timer_get` is a run of the package, and its calls are among the
calls of that run. -/
theorem timerGet_isRun {handlers : Handlers} {clock : Nat → Timeval} {fuel : Nat} {t : Timers}
    {g : Getting} {out : Option Timeval}
    (hrun : timerGet handlers clock fuel t = some (g, out)) :
    ∃ ops os, run step t ops = some (g.timers, os) ∧ g.calls.Sublist (os.filterMap called) := by
  cases hcheck : t.timerCheck with
  | none => simp [timerGet, hcheck] at hrun
  | some u =>
      simp only [timerGet, hcheck, Option.bind_eq_bind, Option.bind_some] at hrun
      obtain ⟨ops, os, calls, hops, hcalls, hsub⟩ := loop_isRun hrun
      exact ⟨ops, os, hops, by simpa using hcalls ▸ hsub⟩

/-! ### A run -/

/-- A timer every two seconds from 11 on, one at 13.5, two passes of `timer_get`, a cancellation
and a timer for a third client. -/
def someOps : List Op :=
  [.set (some ⟨1, 0⟩) 7 100 true ⟨10, 0⟩ 64, .store 64 ⟨2, 0⟩,
    .set (some ⟨3, 500000⟩) 8 200 true ⟨10, 0⟩ 128, .get ⟨10, 0⟩, .get ⟨12, 0⟩,
    .set none 8 200 false ⟨0, 0⟩ 0, .pending, .set (some ⟨20, 0⟩) 9 300 false ⟨0, 0⟩ 0]

/-- The operations of the example are allowed. -/
theorem someOps_allowed : RunMeets step Op.Allowed Timers.start someOps := by
  iterate 8 refine runMeets_cons (by decide) rfl ?_
  trivial

/-- The run of the example. -/
theorem run_spec_someOps : ∃ t os, run step Timers.start someOps = some (t, os) ∧
    Represents t (after someOps) [] ∧ (after someOps).Sound :=
  run_spec someOps_allowed

/-! ### The memory of the package -/

/-- An insertion makes the queue one longer. -/
theorem length_orderedInsert (timer : Ptr → Timer) (p : Ptr) (queue : List Ptr) :
    (queue.orderedInsert (Table.Earlier timer) p).length = queue.length + 1 := by
  rw [(List.perm_orderedInsert _ p queue).length_eq, List.length_cons]

/-- Taking out a timer makes the queue one shorter. -/
theorem length_without {T : Table} (h : T.Sound) {client : NotifyClient} {p : Ptr}
    (hfind : T.find client = some p) : (T.without client).length + 1 = T.queue.length := by
  obtain ⟨hmem, hclient⟩ := (Table.find_eq_some_iff h).mp hfind
  have hpos := List.length_pos_of_mem hmem
  have hlen := List.length_eraseP_of_mem hmem
    (p := fun p => decide ((T.timer p).client = client)) (by simpa using hclient)
  unfold Table.without
  omega

/-- A call of `timer_set` keeps the number of elements, or there was no free one and it is one
more. -/
theorem set_count {T : Table} (h : T.Sound) (interval : Option Timeval) (func : NotifyFunc)
    (client : NotifyClient) (relative : Bool) (now : Timeval) (fresh : Ptr) :
    (T.set interval func client relative now fresh).1.queue.length +
        (T.set interval func client relative now fresh).1.free.length =
        T.queue.length + T.free.length ∨
      (T.set interval func client relative now fresh).1.free = [] ∧
        (T.set interval func client relative now fresh).1.queue.length =
          T.queue.length + T.free.length + 1 := by
  cases interval with
  | none =>
      cases hfind : T.find client with
      | none => exact .inl (by simp [Table.set, hfind])
      | some p =>
          have hlen := length_without h hfind
          left
          simp only [Table.set, hfind, List.length_cons]
          omega
  | some i =>
      cases hfind : T.find client with
      | some p =>
          have hlen := length_without h hfind
          left
          simp only [Table.set, hfind, Table.arm, length_orderedInsert]
          omega
      | none =>
          have hall := Table.without_eq_queue h hfind
          cases hfree : T.free with
          | cons p free =>
              left
              simp only [Table.set, hfind, hfree, Table.arm, length_orderedInsert, hall,
                List.length_cons]
              omega
          | nil =>
              -- the one case that allocates
              right
              simp [Table.set, hfind, hfree, Table.arm, length_orderedInsert, hall]

/-- A pass of `timer_get` keeps the number of elements. -/
theorem getPass_count (T : Table) (now : Timeval) :
    (T.getPass now).1.queue.length + (T.getPass now).1.free.length =
      T.queue.length + T.free.length := by
  unfold Table.getPass
  cases hqueue : T.queue with
  | nil => simp [hqueue]
  | cons p queue =>
      dsimp only
      split
      · rw [hqueue]
      · split
        · simp only [List.length_cons]
          omega
        · simp only [Table.arm, length_orderedInsert, List.length_cons]

/-- An operation keeps the number of elements, or there was none free and the new one is
pending. -/
theorem step_count {T : Table} (h : T.Sound) (op : Op) :
    (T.step op).1.queue.length + (T.step op).1.free.length = T.queue.length + T.free.length ∨
      (T.step op).1.free = [] ∧
        (T.step op).1.queue.length = T.queue.length + T.free.length + 1 := by
  cases op with
  | set interval func client relative now fresh =>
      exact set_count h interval func client relative now fresh
  | store p i => exact .inl rfl
  | get now => exact .inl (getPass_count T now)
  | pending => exact .inl rfl

/-- The elements on the queues are as many as were ever pending at once. -/
theorem after_isGreatest {ops : List Op} (hallowed : RunMeets step Op.Allowed Timers.start ops) :
    IsGreatest {n | ∃ past, past <+: ops ∧ n = (after past).queue.length}
      ((after ops).queue.length + (after ops).free.length) := by
  induction ops using List.reverseRecOn with
  | nil =>
      refine ⟨⟨[], List.prefix_rfl, rfl⟩, ?_⟩
      rintro n ⟨past, hpast, rfl⟩
      rw [List.prefix_nil.mp hpast]
      exact Nat.le_add_right ..
  | append_singleton ops op ih =>
      obtain ⟨⟨past, hpast, hlen⟩, hmax⟩ := ih hallowed.of_append
      have hsound : (after ops).Sound := by
        obtain ⟨-, -, -, -, hs⟩ := run_from ⟨start_represents, start_sound⟩ hallowed.of_append
        exact hs
      -- A step takes a new element only with nothing free, and then all elements are pending.
      have hcount := step_count hsound op
      rw [← after_concat] at hcount
      constructor
      · rcases hcount with hsame | ⟨hfree, hnew⟩
        · exact ⟨past, hpast.trans (List.prefix_append ops [op]), by rw [hsame, hlen]⟩
        · exact ⟨ops ++ [op], List.prefix_rfl, by rw [hfree]; rfl⟩
      · rintro n ⟨past', hpast', rfl⟩
        rcases List.prefix_concat_iff.mp hpast' with rfl | hpast'
        · exact Nat.le_add_right ..
        · have hle := hmax ⟨past', hpast', rfl⟩
          rcases hcount with hsame | ⟨hfree, hnew⟩
          · rw [hsame]
            exact hle
          · rw [hfree, hnew]
            exact hle.trans (Nat.le_succ _)

/-- The package never frees memory, and it never allocates more than it has to: the elements
it has allocated are as many as timers were ever pending at once. -/
theorem allocated_isGreatest {ops : List Op} {t : Timers} {os : List Returned}
    (hallowed : RunMeets step Op.Allowed Timers.start ops)
    (hrun : run step Timers.start ops = some (t, os)) :
    IsGreatest {n | ∃ past, past <+: ops ∧ n = (after past).queue.length}
      {p | (t.heap p).isSome}.ncard := by
  obtain ⟨t', os', hrun', hrep, -⟩ := run_from ⟨start_represents, start_sound⟩ hallowed
  rw [hrun] at hrun'
  cases hrun'
  change Represents t (after ops) [] at hrep
  have hset : {p | (t.heap p).isSome} = ((after ops).queue ++ (after ops).free).toFinset := by
    ext p
    show (t.heap p).isSome = true ↔ _
    rw [hrep.heap_isSome_iff]
    simp
  have hnodup : ((after ops).queue ++ (after ops).free).Nodup :=
    hrep.queue.nodup.append hrep.free.nodup hrep.disjoint
  rw [hset, Set.ncard_coe_finset, List.toFinset_card_of_nodup hnodup, List.length_append]
  exact after_isGreatest hallowed

/-- The allocation in the run of the example. -/
theorem allocated_isGreatest_someOps : ∃ t os, run step Timers.start someOps = some (t, os) ∧
    IsGreatest {n | ∃ past, past <+: someOps ∧ n = (after past).queue.length}
      {p | (t.heap p).isSome}.ncard := by
  obtain ⟨t, os, hrun, -⟩ := run_from ⟨start_represents, start_sound⟩ someOps_allowed
  exact ⟨t, os, hrun, allocated_isGreatest someOps_allowed hrun⟩

end MyTestFiles.Proofs.Multimer
