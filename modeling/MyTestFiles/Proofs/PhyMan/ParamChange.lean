import MyTestFiles.PhyMan.Manager

/-!
# `MyTestFiles.Proofs.PhyMan.ParamChange`: parameter changes are never lost

`Inv` is what every call of the interface keeps. A change that the state machine has not seen
leaves the manager below `RunModeOperating` and with no completion time, and otherwise the
latest event of the trace is a restart. So `restartStateMachine` finds the completion time that
it asserts, and the machine has been restarted since the latest change whenever the manager
operates.

The argument has three parts:

- The functions around the PHY cannot break `Inv`, since they do not work on its attributes
  (`Inv.withMii`). What is used of them is that a restart leaves the state of the PHY
  initialization alone, which ends the loop of `maybeMakePhyInitProgress` (`phyRank`).
- `changeParam` and `restartStateMachine` establish `Inv`, each for its own reason
  (`inv_changed`, `inv_restarted`). The setters, the boot, the end of the initialization and
  the forced discovery are built from the two.
- The state machine is a parameter. `runs_endWell` shows that no run of it breaks `Inv`, by
  induction on the run: the machine's own steps do not touch the manager, and each function
  that it calls keeps `Inv` (`notify_sat`).

`param_changes` collects the results for every state that calls of the interface reach from a
new manager, whatever was in its memory, whatever the device answers and whatever the state
machine does within `StateMachine.Documented`. A call that stops at an assertion ends the
program, so it reaches no state. Two calls are excluded by the source in this way: a setter
that changes a value while the manager operates stops in `changeParam`, and a forced discovery
before the PHY is initialized stops in `forcedDpmDeviceDiscovery`.

The last section builds a machine with a queue of pending events, as `StateMachine.h` declares
one, and boots a manager of a BCM5218 with it.
-/

set_option autoImplicit false

namespace MyTestFiles.Proofs.PhyMan

open MyTestFiles.Lib
open MyTestFiles.PhyMan

variable {σ : Type} {sm : StateMachine σ}

/-! ### Functions around the PHY -/

section Steps
variable {m : Mii σ} {fails : MiiAssertion → Prop} {fn : MiiAssertion} {event : SmEvent}
  {post : Unit → Mii σ → Prop}

/-- A reading takes the next answer of the device. -/
@[simp]
theorem sat_readHal {post : HalRead → Mii σ → Prop} :
    Sat readHal m fails post ↔ post (m.hal m.reads) { m with reads := m.reads + 1 } := Iff.rfl

/-- An event that is thrown changes the machine and nothing else. -/
@[simp]
theorem sat_throwEvent :
    Sat (throwEvent sm event) m fails post ↔ post () { m with sm := sm.throwEvent event m.sm } :=
  Iff.rfl

/-- `assert( 0 )` stops the program. -/
@[simp]
theorem sat_throw : Sat (throw fn : MiiM σ Unit) m fails post ↔ fails fn := Iff.rfl

/-- The `default` branch of a switch over the PHY types is for a PHY without one. -/
@[simp]
theorem sat_assertPhyType :
    Sat (assertPhyType fn) m fails post ↔
      (m.phyType = .null → fails fn) ∧ (m.phyType ≠ .null → post () m) := by
  simp [assertPhyType]

end Steps

/-- From `m` the program ends with `post` or stops at an assertion. -/
def Ends {α : Type} (prog : MiiM σ α) (m : Mii σ) (post : α → Mii σ → Prop) : Prop :=
  Sat prog m (fun _ => True) post

/-- A weaker end. -/
theorem Ends.mono {α : Type} {prog : MiiM σ α} {m : Mii σ} {post post' : α → Mii σ → Prop}
    (h : Ends prog m post) (hpost : ∀ a m', post a m' → post' a m') : Ends prog m post' :=
  Sat.mono h (fun _ _ => trivial) hpost

/-- Nothing is asked of the end. -/
theorem ends_true {α : Type} (prog : MiiM σ α) (m : Mii σ) : Ends prog m fun _ _ => True := by
  simp only [Ends, Sat]
  cases prog m with
  | error fn => trivial
  | ok r => trivial

section PhyInit
variable {m : Mii σ}

/-- The label `disable` leaves the initialization alone. -/
theorem disable_ends :
    Ends (disable sm) m fun _ m' => m'.phyInitState = m.phyInitState := by
  simp [Ends, disable]

/-- So does a forced configuration. -/
theorem pushForced_ends (control : HalEthControlReg) :
    Ends (pushForced sm control) m fun _ m' => m'.phyInitState = m.phyInitState := by
  simp [Ends, pushForced, pushRegisters, disablePhyTransmission, configurePhyConnector, sat_ite]

/-- So does the start of an autonegotiation. -/
theorem pushAuto_ends (stat : Capabilities) :
    Ends (pushAuto sm stat) m fun _ m' => m'.phyInitState = m.phyInitState := by
  simp [Ends, pushAuto, pushRegisters, disablePhyTransmission, configurePhyConnector]

/-- Pushing the parameters leaves the initialization alone, in every configuration mode. -/
theorem pushParams_ends :
    Ends (pushParamsIntoMiiAndRestartNegotiaton sm) m fun _ m' =>
      m'.phyInitState = m.phyInitState := by
  simp only [Ends, pushParamsIntoMiiAndRestartNegotiaton, sat_bind, sat_get, sat_assert,
    implies_true, true_and]
  intro _
  cases m.ethConfigurationMode with
  | disabled => exact disable_ends
  | forced =>
      show Sat _ { m with needToPushMoreData := false } _ _
      cases forcedControl m with
      | none => exact disable_ends
      | some control => exact pushForced_ends control
  | auto =>
      rw [sat_bind, sat_readHal, sat_ite]
      constructor
      · intro _
        exact disable_ends
      · intro _
        exact pushAuto_ends _

/-- The states that are still to come in the initialization. -/
def phyRank (m : Mii σ) : Nat :=
  match m.phyInitState with
  | .waitForPhyReset => 2
  | .waitBcm5400PowerFix => 1
  | _ => 0

/-- There are two of them at most. -/
theorem phyRank_le (m : Mii σ) : phyRank m ≤ 2 := by
  simp only [phyRank]
  split
  all_goals decide

/-- A pass of the initialization stays where it is or gets closer to the end. -/
theorem phyInitProgress_advances :
    Ends phyInitProgress m fun _ m' =>
      m'.phyInitState ≠ m.phyInitState → phyRank m' < phyRank m := by
  simp only [Ends, phyInitProgress, sat_bind, sat_get]
  cases hinit : m.phyInitState with
  | null => exact trivial
  | complete => exact trivial
  | waitForPhyReset =>
      cases htype : m.phyType <;>
        simp [sat_ite, setMiiRegDefaults, hinit, phyRank]
  | waitBcm5400PowerFix => simp [sat_ite, hinit, phyRank]

end PhyInit

/-! ### The invariant -/

/-- What every call keeps.

- `pending`: a change that the state machine has not seen keeps the manager from operating,
  and there is no completion time;
- `latest`: without such a change the latest event is a restart, if there is one;
- `booted`: a manager that has left `RunModeReboot` has recorded something. -/
structure Inv (m : Manager σ) : Prop where
  pending : m.paramChanged = true → m.runMode ≠ .operating ∧ m.lastCompleteTime = none
  latest : m.paramChanged = false → m.trace = [] ∨ ∃ older, m.trace = .restarted :: older
  booted : m.runMode ≠ .reboot → m.trace ≠ []

/-- The places where a call may stop: any but the assertion of `restartStateMachine`, and no
loop of the manager is too long. -/
def Allowed (fn : Assertion) : Prop := fn ≠ .restartStateMachine ∧ fn ≠ .tooLong

section Manager
variable {m : Manager σ}

/-- An assertion around the PHY is allowed. -/
theorem allowed_mii (fn : MiiAssertion) : Allowed (.mii fn) := ⟨by simp, by simp⟩

/-- A program around the PHY within the manager works on `mii`. -/
theorem sat_onMii {α : Type} {prog : MiiM σ α} {fails : Assertion → Prop}
    {post : α → Manager σ → Prop} :
    Sat (onMii prog) m fails post ↔
      Sat prog m.mii (fun fn => fails (.mii fn)) fun a mii => post a { m with mii } := by
  simp only [Sat, onMii]
  cases prog m.mii with
  | error fn => rfl
  | ok r => rfl

/-- What is known of such a program carries over to the manager. -/
theorem Ends.onMii {α : Type} {prog : MiiM σ α} {post : α → Mii σ → Prop}
    {post' : α → Manager σ → Prop} (h : Ends prog m.mii post)
    (hpost : ∀ a mii, post a mii → post' a { m with mii }) :
    Sat (onMii prog) m Allowed post' :=
  sat_onMii.mpr (Sat.mono h (fun fn _ => allowed_mii fn) hpost)

/-- A manager that operates has no pending change. -/
theorem Inv.operating (h : Inv m) (hop : m.runMode = .operating) : m.paramChanged = false := by
  cases hparam : m.paramChanged with
  | false => rfl
  | true => exact absurd hop (h.pending hparam).1

/-- The functions around the PHY keep the invariant, since it does not mention `mii`. -/
theorem Inv.withMii (h : Inv m) (mii : Mii σ) : Inv { m with mii } :=
  { pending := h.pending, latest := h.latest, booted := h.booted }

/-- A new manager meets the invariant. -/
theorem inv_ethMiiPhyMan (garbage : Mii σ) : Inv (ethMiiPhyMan garbage) :=
  { pending := fun h => absurd h (by simp [ethMiiPhyMan])
    latest := fun _ => .inl rfl
    booted := fun h => absurd rfl h }

/-! ### Changes and restarts -/

/-- After `changeParam`. -/
def changed (m : Manager σ) : Manager σ :=
  { m with
    mii := takeLinkDown m.mii
    paramChanged := true
    lastCompleteTime := none
    trace := .changed :: m.trace }

/-- `changeParam` returns below `RunModeOperating` only. -/
theorem changeParam_sat {post : Unit → Manager σ → Prop}
    (h : m.runMode ≠ .operating → post () (changed m)) : Sat changeParam m Allowed post := by
  simp only [changeParam, sat_bind, sat_get, sat_assert, sat_modify]
  refine ⟨fun _ => ⟨by simp, by simp⟩, fun hbelow => h fun hop => ?_⟩
  simp [hop] at hbelow

/-- A change meets the invariant, whatever was there before. -/
theorem inv_changed (h : m.runMode ≠ .operating) : Inv (changed m) :=
  { pending := fun _ => ⟨h, rfl⟩
    latest := fun hparam => absurd hparam (by simp [changed])
    booted := fun _ => by simp [changed] }

/-- After `restartStateMachine`, with what it has made of the PHY side. -/
def restarted (m : Manager σ) (mii : Mii σ) : Manager σ :=
  { m with mii := mii, paramChanged := false, trace := .restarted :: m.trace }

/-- So does a restart. -/
theorem inv_restarted (mii : Mii σ) : Inv (restarted m mii) :=
  { pending := fun hparam => absurd hparam (by simp [restarted])
    latest := fun _ => .inr ⟨m.trace, rfl⟩
    booted := fun _ => by simp [restarted] }

variable (sm) in
/-- A restart with no completion time passes its assertion. Without an initialization to do it
leaves the state of the initialization alone. -/
theorem restartStateMachine_sat (h : m.lastCompleteTime = none) :
    Sat (restartStateMachine sm) m Allowed fun _ m' =>
      ∃ mii, m' = restarted m mii ∧
        (m.needToInitializePhy = false → mii.phyInitState = m.mii.phyInitState) := by
  simp only [restartStateMachine, sat_bind, sat_modify, sat_get, sat_assert, sat_ite]
  refine ⟨fun hfail => absurd h hfail.2, fun _ => ?_⟩
  constructor
  · -- an initialization first
    intro hinit
    rw [sat_onMii, sat_throwEvent]
    exact (ends_true _ _).onMii fun _ mii _ => ⟨mii, rfl, fun hno => by simp [hinit] at hno⟩
  · intro _
    constructor
    · intro _
      rw [sat_onMii, sat_throwEvent]
      have hends : Ends disablePhyTransmission
          { m.mii with sm := sm.throwEvent .waitLinkDown m.mii.sm }
          fun _ m' => m'.phyInitState = m.mii.phyInitState := by
        simp [Ends, disablePhyTransmission]
      exact hends.onMii fun _ mii h' => ⟨mii, rfl, fun _ => h'⟩
    · intro _
      refine sat_onMii.mpr (Sat.mono pushParams_ends (fun fn _ => allowed_mii fn) ?_)
      rintro - mii h'
      exact ⟨mii, rfl, fun _ => h'⟩

/-! ### The setters -/

/-- What a setter does, where `before` says that the value is already set and `after` that it
is set at the end: nothing, or a change that stores the value. -/
structure Stores (m m' : Manager σ) (before after : Prop) : Prop where
  stored : after
  same : before → m' = m
  changes : ¬before → m.runMode ≠ .operating ∧ ∃ mii, m' = { changed m with mii }

/-- The setters with one comparison. -/
theorem setParam_sat {α : Type} [DecidableEq α] {get : Mii σ → α} {set : Mii σ → Mii σ} {value : α}
    (hset : ∀ mii, get (set mii) = value) :
    Sat (setParam get set value) m Allowed fun _ m' =>
      Stores m m' (get m.mii = value) (get m'.mii = value) := by
  simp only [setParam, sat_bind, sat_get, sat_ite, sat_modify, sat_pure]
  constructor
  · intro hne
    exact changeParam_sat fun hbelow =>
      { stored := hset _
        same := fun heq => absurd heq hne
        changes := fun _ => ⟨hbelow, _, rfl⟩ }
  · intro heq
    exact
      { stored := not_not.mp heq
        same := fun _ => rfl
        changes := fun hne => absurd hne heq }

/-- The setter of the loopback asserts its argument after the change. -/
theorem permittedLoopback_sat (l : InlinePower.EthLoopback) :
    Sat (permittedLoopback l) m Allowed fun _ m' =>
      Stores m m' (m.mii.permittedLoopback = l) (m'.mii.permittedLoopback = l) := by
  simp only [permittedLoopback, sat_bind, sat_get, sat_ite, sat_modify, sat_pure, sat_assert]
  constructor
  · intro hne
    exact changeParam_sat fun hbelow => ⟨fun _ => ⟨by simp, by simp⟩, fun _ =>
      { stored := trivial
        same := fun heq => absurd heq hne
        changes := fun _ => ⟨hbelow, _, rfl⟩ }⟩
  · intro heq
    exact
      { stored := not_not.mp heq
        same := fun _ => rfl
        changes := fun hne => absurd hne heq }

/-- Every setter stores its value, and calls `changeParam` exactly when that changes one. -/
theorem setter_sat (p : Param) :
    Sat (setter p) m Allowed fun _ m' => Stores m m' (p.Set m.mii) (p.Set m'.mii) := by
  cases p with
  | configurationMode ecm =>
      rw [setter, configurationMode]
      exact setParam_sat fun _ => rfl
  -- This setter asserts first that the type is not null.
  | connectorType type =>
      simp only [setter, connectorType, sat_bind, sat_assert]
      refine ⟨fun _ => ⟨by simp, by simp⟩, fun _ => ?_⟩
      exact @setParam_sat σ m _ _ Mii.connectorType _ _ fun _ => rfl
  | nextPageCapable npc =>
      rw [setter, nextPageCapable]
      exact setParam_sat fun _ => rfl
  | permittedFlowControlMode efcms =>
      rw [setter, permittedFlowControlMode]
      exact setParam_sat fun _ => rfl
  | permittedDuplex eds =>
      rw [setter, permittedDuplex]
      exact setParam_sat fun _ => rfl
  | permittedLineSpeed elss =>
      rw [setter, permittedLineSpeed]
      exact setParam_sat fun _ => rfl
  | permittedClockMode ecm =>
      rw [setter, permittedClockMode]
      exact setParam_sat fun _ => rfl
  | localFaultIndication efi =>
      rw [setter, localFaultIndication]
      exact setParam_sat fun _ => rfl
  | permittedLoopback l => exact permittedLoopback_sat l

/-- A setter keeps the invariant. -/
theorem Inv.stores {m' : Manager σ} {before after : Prop} (h : Inv m)
    (hstores : Stores m m' before after) : Inv m' := by
  by_cases hbefore : before
  · rw [hstores.same hbefore]
    exact h
  · obtain ⟨hbelow, mii, rfl⟩ := hstores.changes hbefore
    exact (inv_changed hbelow).withMii mii

/-! ### The run mode -/

/-- A pass on the way up goes one mode up. The last one restarts the machine for a pending
change. -/
theorem boot_sat (h : Inv m) :
    Sat (boot sm) m Allowed fun _ m' => Inv m' ∧ m'.runMode.level = m.runMode.level + 1 := by
  simp only [boot, sat_bind, sat_get]
  -- Reboot and Reset leave a change pending, and Frozen restarts the machine for it.
  cases hmode : m.runMode with
  | reboot =>
      simp only [sat_bind, sat_assert, sat_modify]
      refine ⟨fun _ => ⟨by simp, by simp⟩, fun _ => changeParam_sat fun _ => ?_⟩
      exact
        ⟨{ pending := fun _ => ⟨by simp, rfl⟩
           latest := fun hparam => absurd hparam (by simp [changed])
           booted := fun _ => by simp [changed] }, rfl⟩
  | reset =>
      simp only [sat_bind, sat_modify]
      refine changeParam_sat fun _ => ?_
      exact
        ⟨{ pending := fun _ => ⟨by simp, rfl⟩
           latest := fun hparam => absurd hparam (by simp [changed])
           booted := fun _ => by simp [changed] }, rfl⟩
  | frozen =>
      have htrace : m.trace ≠ [] := h.booted (by simp [hmode])
      simp only [sat_bind, sat_modify, sat_assert, sat_ite, sat_pure]
      refine ⟨fun _ => ⟨by simp, by simp⟩, fun _ => ⟨fun hparam => ?_, fun hparam => ?_⟩⟩
      · -- the change has left no completion time
        have hrestart := restartStateMachine_sat sm (m := { m with runMode := .operating })
          (h.pending hparam).2
        refine hrestart.mono (fun _ h => h) ?_
        rintro - m' ⟨mii, rfl, -⟩
        exact ⟨inv_restarted mii, rfl⟩
      · exact
          ⟨{ pending := fun h => absurd h hparam
             latest := h.latest
             booted := fun _ => htrace }, rfl⟩
  | operating => exact ⟨by simp, by simp⟩

/-- A pass on the way down goes one mode down and changes nothing else. -/
theorem shutDown_sat (h : Inv m) :
    Sat shutDown m Allowed fun _ m' => Inv m' ∧ m'.runMode.level + 1 = m.runMode.level := by
  simp only [shutDown, sat_bind, sat_get]
  have hdown : ∀ rm : RunMode, rm ≠ .operating → m.runMode ≠ .reboot →
      Inv { m with runMode := rm } := fun rm hrm hmode =>
    { pending := fun hparam => ⟨hrm, (h.pending hparam).2⟩
      latest := h.latest
      booted := fun _ => h.booted hmode }
  cases hmode : m.runMode with
  | operating => exact ⟨hdown .frozen (by simp) (by simp [hmode]), rfl⟩
  | frozen => exact ⟨hdown .reset (by simp) (by simp [hmode]), rfl⟩
  | reset => exact ⟨hdown .reboot (by simp) (by simp [hmode]), rfl⟩
  | reboot => exact ⟨by simp, by simp⟩

/-- The passes that are still to come. -/
def distance (m : Manager σ) (rm : RunMode) : Nat :=
  (rm.level - m.runMode.level) + (m.runMode.level - rm.level)

/-- The levels tell the run modes apart. -/
theorem level_injective {rm rm' : RunMode} (h : rm.level = rm'.level) : rm = rm' := by
  revert h
  cases rm <;> cases rm' <;> decide

/-- `runMode` gets to its target, one mode at a time. -/
theorem runMode_sat (h : Inv m) (rm : RunMode) :
    Sat (runMode sm rm) m Allowed fun _ m' => Inv m' ∧ m'.runMode = rm := by
  have hlevel : ∀ rm : RunMode, rm.level ≤ 3 := by
    intro rm
    cases rm <;> decide
  -- the distance to the target is the measure of the loop, and there are four modes
  have hstart : Inv m ∧ distance m rm ≤ 3 := by
    have h₁ := hlevel rm
    have h₂ := hlevel m.runMode
    refine ⟨h, ?_⟩
    simp only [distance]
    omega
  refine (sat_whileLoop (fun k m => Inv m ∧ distance m rm ≤ k) ?_ hstart (by decide)).mono
    (fun _ h => h) ?_
  · rintro k m ⟨hinv, hdistance⟩ hcond
    have hne : m.runMode.level ≠ rm.level := fun heq => by
      simp [level_injective heq] at hcond
    rw [sat_bind, sat_get, sat_ite]
    constructor
    · intro hbelow
      refine (boot_sat hinv).mono (fun _ h => h) ?_
      rintro - m' ⟨hinv', hup⟩
      refine ⟨distance m' rm, ?_, hinv', Nat.le_refl _⟩
      simp only [distance] at hdistance ⊢
      omega
    · intro habove
      refine (shutDown_sat hinv).mono (fun _ h => h) ?_
      rintro - m' ⟨hinv', hdown⟩
      refine ⟨distance m' rm, ?_, hinv', Nat.le_refl _⟩
      simp only [distance] at hdistance ⊢
      omega
  · rintro - m' ⟨hcond, k, hinv', -⟩
    exact ⟨hinv', by simpa using hcond⟩

/-! ### The state machine -/

/-- `m'` meets the invariant and is in the run mode of `m`. -/
def KeepsMode (m m' : Manager σ) : Prop := Inv m' ∧ m'.runMode = m.runMode

/-- The initialization ends, and its restart is one with no completion time. -/
theorem maybeMakePhyInitProgress_sat (h : Inv m) :
    Sat (maybeMakePhyInitProgress sm) m Allowed fun _ m' => KeepsMode m m' := by
  -- the initialization takes two steps at most, and then it is complete
  have hstart : KeepsMode m m ∧ phyRank m.mii ≤ 2 := ⟨⟨h, rfl⟩, phyRank_le _⟩
  refine sat_untilStable (fun k n => KeepsMode m n ∧ phyRank n.mii ≤ k)
    (fun m' => KeepsMode m m') ?_ hstart (by decide)
  rintro k n ⟨⟨hinv, hmode⟩, hk⟩
  rw [sat_bind, sat_get, sat_ite]
  constructor
  · -- complete: the restart leaves that state alone, which ends this loop
    intro hcomplete
    rw [sat_bind, sat_modify]
    have hrestart := restartStateMachine_sat sm
      (m := { n with needToInitializePhy := false, lastCompleteTime := none }) rfl
    refine hrestart.mono (fun _ h => h) ?_
    rintro - n' ⟨mii, rfl, hsame⟩
    exact ⟨fun _ => ⟨inv_restarted mii, hmode⟩, fun hne => absurd (hsame rfl) hne⟩
  · intro _
    refine phyInitProgress_advances.onMii ?_
    rintro - mii hadvance
    refine ⟨fun _ => ⟨hinv.withMii mii, hmode⟩, fun hne => ?_⟩
    exact ⟨phyRank mii, by have := hadvance hne; omega, ⟨hinv.withMii mii, hmode⟩, Nat.le_refl _⟩

/-- Whatever function the state machine calls, it keeps the invariant and the run mode. -/
theorem notify_sat (h : Inv m) (n : Notification) :
    Sat (notify sm n) m Allowed fun _ m' => KeepsMode m m' := by
  -- A function that is handed the attributes of `Mii` only cannot reach the manager's own.
  have hmii : ∀ prog : MiiM σ Unit, Sat (onMii prog) m Allowed fun _ m' => KeepsMode m m' :=
    fun prog => (ends_true prog m.mii).onMii fun _ mii _ => ⟨h.withMii mii, rfl⟩
  have hnone : Sat (pure () : ManagerM σ Unit) m Allowed fun _ m' => KeepsMode m m' := ⟨h, rfl⟩
  cases n with
  | functionBeforeRun state =>
      cases state with
      | waitPhyInit => exact maybeMakePhyInitProgress_sat h
      | null => exact hnone
      | waitLinkDown => exact hmii (stateWaitLinkDown sm)
      | waitConfigurationPush => exact hmii (stateWaitConfigurationPush sm)
      | waitAutonegFinish => exact hmii (stateWaitAutonegFinish sm)
      | waitForAutonegErrorResolution => exact hmii (stateWaitForAutonegErrorResolution sm)
      | loopbackEnabled => exact hmii stateLoopbackEnabled
      | disabled => exact hmii stateDisabled
  | transition state =>
      cases state with
      | waitConfigurationPush => exact hmii (configurationPushed sm)
      | waitAutonegFinish => exact hmii (checkAutoneg sm)
      | waitForAutonegErrorResolution => exact hmii (resolveError sm)
      | null => exact hnone
      | waitPhyInit => exact hnone
      | waitLinkDown => exact hnone
      | loopbackEnabled => exact hnone
      | disabled => exact hnone
  | waitAutonegFinish => exact hmii (waitAutonegFinish sm)

/-- An end of a run that keeps the invariant and the run mode, or stops where a call may. -/
def EndsWell (m : Manager σ) : Except Assertion (Manager σ) → Prop
  | .ok m' => KeepsMode m m'
  | .error fn => Allowed fn

/-- No run of the state machine breaks the invariant. -/
theorem runs_endWell {r : Except Assertion (Manager σ)} (hruns : Runs sm m r) (h : Inv m) :
    EndsWell m r := by
  induction hruns with
  | done m => exact ⟨h, rfl⟩
  | error m => exact ⟨by simp, by simp⟩
  | own machine _ ih =>
      have hwell := ih (h.withMii _)
      exact hwell
  | @notified m m' r n hn _ ih =>
      obtain ⟨hinv', hmode⟩ := (notify_sat h n).post_of_ok hn
      have hwell := ih hinv'
      cases r with
      | error fn => exact hwell
      | ok m'' => exact ⟨hwell.1, hwell.2.trans hmode⟩
  | stopped n hn => exact (notify_sat h n).fails_of_error hn

/-- So `SM->run()` keeps it. -/
theorem run_sat (hsm : sm.Documented) (h : Inv m) :
    Sat sm.run m Allowed fun _ m' => KeepsMode m m' := by
  have hwell := runs_endWell (hsm.run m) h
  simp only [Sat]
  cases hrun : sm.run m with
  | error fn =>
      rw [hrun] at hwell
      exact hwell
  | ok r =>
      rw [hrun] at hwell
      exact hwell

/-! ### The status queries -/

/-- A manager that is not below `RunModeOperating` operates. -/
theorem operating_of_level (h : ¬m.runMode.level < RunMode.operating.level) :
    m.runMode = .operating := by
  revert h
  cases m.runMode <;> decide

/-- A query may stamp the completion time, but only while the manager operates. -/
theorem checkAutoNegComplete_sat (hsm : sm.Documented) (h : Inv m) (passes : Nat) (now : Int) :
    Sat (checkAutoNegComplete sm passes now) m Allowed fun _ m' => Inv m' := by
  simp only [checkAutoNegComplete, sat_bind, sat_get, sat_ite, sat_pure, sat_modify]
  refine ⟨fun _ => h, fun _ => sat_onMii.mpr ⟨fun _ => h.withMii _, fun habove => ?_⟩⟩
  have hparam := h.operating (operating_of_level habove)
  refine sat_untilStable_of_invariant Inv ⟨by simp, by simp⟩ (fun n hinv => ?_) ?_
  · exact (run_sat hsm hinv).mono (fun _ h => h) fun _ _ h => h.1
  · exact
      { pending := fun hchanged => by simp [hparam] at hchanged
        latest := h.latest
        booted := h.booted }

/-- A query that goes on after `checkAutoNegComplete` with readings of the device. -/
theorem sat_after_check {α : Type} (hsm : sm.Documented) (h : Inv m) (passes : Nat) (now : Int)
    {prog : ManagerM σ α} (hprog : ∀ m : Manager σ, Inv m → Sat prog m Allowed fun _ m' => Inv m') :
    Sat (checkAutoNegComplete sm passes now >>= fun _ => prog) m Allowed fun _ m' => Inv m' := by
  rw [sat_bind]
  exact (checkAutoNegComplete_sat hsm h passes now).mono (fun _ h => h) fun _ m' h' => hprog m' h'

/-- A result is read after the check. -/
theorem queryResult_sat {α : Type} (hsm : sm.Documented) (h : Inv m) (result : Results → α)
    (passes : Nat) (now : Int) :
    Sat (queryResult sm result passes now) m Allowed fun _ m' => Inv m' :=
  sat_after_check hsm h passes now fun m' h' => by
    rw [sat_bind]
    exact h'

/-- `negotiationStatus` checks only while the manager operates. -/
theorem negotiationStatus_sat (hsm : sm.Documented) (h : Inv m) (passes : Nat) (now : Int) :
    Sat (negotiationStatus sm passes now) m Allowed fun _ m' => Inv m' := by
  simp only [negotiationStatus, sat_bind, sat_get, sat_ite, sat_pure]
  exact ⟨fun _ => h, fun _ => checkAutoNegComplete_sat hsm h passes now⟩

/-- A reading of the device within the manager. -/
theorem readHal_sat {post : HalRead → Manager σ → Prop}
    (hpost : post (m.mii.hal m.mii.reads)
      { m with mii := { m.mii with reads := m.mii.reads + 1 } }) :
    Sat (onMii readHal) m Allowed post := sat_onMii.mpr hpost

/-- A setting of the device is only read. -/
theorem readSetting_sat (h : Inv m) {fn : Assertion} (hfn : Allowed fn) (bit : HalRead → Bool) :
    Sat (readSetting fn bit) m Allowed fun _ m' => Inv m' := by
  simp only [readSetting, sat_bind, sat_get, sat_assert]
  refine ⟨fun _ => hfn, fun _ => ⟨fun _ => hfn, fun _ => readHal_sat ?_⟩⟩
  rw [sat_ite, sat_bind]
  exact ⟨fun _ => readHal_sat ((h.withMii _).withMii _), fun _ => h.withMii _⟩

/-- The counter of the device is read after the check. -/
theorem linkDownEvents_sat (hsm : sm.Documented) (h : Inv m) (passes : Nat) (now : Int) :
    Sat (linkDownEvents sm passes now) m Allowed fun _ m' => Inv m' :=
  sat_after_check hsm h passes now fun m' h' => by
    rw [sat_bind]
    exact readHal_sat (h'.withMii _)

/-- The DPM status is read after the check. -/
theorem dpmDeviceStatus_sat (hsm : sm.Documented) (h : Inv m) (passes : Nat) (now : Int) :
    Sat (dpmDeviceStatus sm passes now) m Allowed fun _ m' => Inv m' := by
  have hdiscovery : ∀ {m : Manager σ}, Inv m →
      Sat dpmDeviceDiscovery m Allowed fun _ m' => Inv m' :=
    fun h => readSetting_sat h ⟨by simp, by simp⟩ _
  have hmode : ∀ {m : Manager σ}, Inv m →
      Sat dpmDeviceDiscoveryModeEnable m Allowed fun _ m' => Inv m' :=
    fun h => readSetting_sat h ⟨by simp, by simp⟩ _
  refine sat_after_check hsm h passes now fun m₀ h₀ => ?_
  rw [sat_bind]
  refine readHal_sat ?_
  rw [sat_ite]
  refine ⟨fun _ => ?_, fun _ => h₀.withMii _⟩
  -- the two settings are read for the assertion
  rw [sat_bind]
  refine (hdiscovery (h₀.withMii _)).mono (fun _ h => h) fun asserted m₁ h₁ => ?_
  rw [sat_bind, sat_assert]
  refine ⟨fun _ => ⟨by simp, by simp⟩, fun _ => ?_⟩
  rw [sat_bind]
  refine (hmode h₁).mono (fun _ h => h) fun assertedMode m₂ h₂ => ?_
  rw [sat_bind, sat_assert]
  refine ⟨fun _ => ⟨by simp, by simp⟩, fun _ => ?_⟩
  -- and once more for the condition
  rw [sat_bind]
  refine (hdiscovery h₂).mono (fun _ h => h) fun discovery m₃ h₃ => ?_
  rw [sat_ite]
  refine ⟨fun _ => ?_, fun _ => h₃⟩
  rw [sat_bind]
  refine (hmode h₃).mono (fun _ h => h) fun mode m₄ h₄ => ?_
  rw [sat_ite]
  refine ⟨fun _ => ?_, fun _ => h₄⟩
  rw [sat_bind]
  refine readHal_sat ?_
  rw [sat_bind, sat_assert]
  exact ⟨fun _ => ⟨by simp, by simp⟩, fun _ => h₄.withMii _⟩

/-- The answer of a query may be dropped. -/
theorem sat_discard {α : Type} {prog : ManagerM σ α}
    (h : Sat prog m Allowed fun _ m' => Inv m') :
    Sat (discard prog) m Allowed fun _ m' => Inv m' := by
  show Sat ((fun _ => ()) <$> prog) m Allowed fun _ m' => Inv m'
  rw [sat_map]
  exact h

/-! ### The interface -/

/-- A forced discovery forgets the completion time before it restarts the machine. -/
theorem forcedDpmDeviceDiscovery_sat (h : Inv m) (discovery : InlinePower.Setting)
    (restart : Bool) :
    Sat (forcedDpmDeviceDiscovery sm discovery restart) m Allowed fun _ m' => Inv m' := by
  simp only [forcedDpmDeviceDiscovery, sat_bind, sat_get, sat_assert, sat_ite, sat_modify,
    sat_pure]
  refine ⟨fun _ => ⟨by simp, by simp⟩, fun _ => ⟨fun _ => ⟨by simp, by simp⟩, fun _ => ?_⟩⟩
  refine ⟨fun _ => ⟨fun _ => ⟨by simp, by simp⟩, fun _ => ?_⟩, fun _ => h⟩
  have hrestart := restartStateMachine_sat sm (m := { m with lastCompleteTime := none }) rfl
  refine hrestart.mono (fun _ h => h) ?_
  rintro - m' ⟨mii, rfl, -⟩
  exact inv_restarted mii

/-- Every call keeps the invariant, and passes the assertion of `restartStateMachine`. -/
theorem call_sat (hsm : sm.Documented) (h : Inv m) (passes : Nat) (c : Call) :
    Sat (call sm passes c) m Allowed fun _ m' => Inv m' := by
  cases c with
  | ethMiiPhyType type =>
      simp only [call, ethMiiPhyType, sat_bind, sat_get, sat_assert, sat_modify]
      exact ⟨fun _ => ⟨by simp, by simp⟩, fun _ => h.withMii _⟩
  | halEthMiiDevice attached =>
      exact { pending := h.pending, latest := h.latest, booted := h.booted }
  | param p => exact (setter_sat p).mono (fun _ h => h) fun _ _ hstores => h.stores hstores
  | needToWaitForLinkDownOnConfigChange b =>
      exact { pending := h.pending, latest := h.latest, booted := h.booted }
  | runMode rm => exact (runMode_sat h rm).mono (fun _ h => h) fun _ _ h => h.1
  | forcedDpmDeviceDiscovery discovery restart =>
      exact forcedDpmDeviceDiscovery_sat h discovery restart
  | negotiationStatus now => exact sat_discard (negotiationStatus_sat hsm h passes now)
  | negotiationError => exact sat_discard (sat_bind.mpr h)
  -- the results are only read
  | remoteFaultIndication now => exact sat_discard (queryResult_sat hsm h _ passes now)
  | linkStatus now => exact sat_discard (queryResult_sat hsm h _ passes now)
  | flowControlMode now => exact sat_discard (queryResult_sat hsm h _ passes now)
  | duplex now => exact sat_discard (queryResult_sat hsm h _ passes now)
  | lineSpeed now => exact sat_discard (queryResult_sat hsm h _ passes now)
  | clockMode now => exact sat_discard (queryResult_sat hsm h _ passes now)
  | loopback now => exact sat_discard (queryResult_sat hsm h _ passes now)
  | linkDownEvents now => exact sat_discard (linkDownEvents_sat hsm h passes now)
  | dpmDeviceStatus now => exact sat_discard (dpmDeviceStatus_sat hsm h passes now)
  | onNewConfiguration =>
      simp only [call, onNewConfiguration, sat_bind, sat_get]
      exact (ends_true _ _).onMii fun _ mii _ => h.withMii mii

end Manager

/-- The state machine has been restarted after the latest change. -/
def RestartedSinceChange (trace : List TraceEvent) : Prop :=
  ∃ newer older, trace = newer ++ .restarted :: older ∧ .changed ∉ newer

/-- The invariant gives this for a manager that operates. -/
theorem Inv.restartedSinceChange {m : Manager σ} (h : Inv m) (hop : m.runMode = .operating) :
    RestartedSinceChange m.trace := by
  rcases h.latest (h.operating hop) with hempty | ⟨older, htrace⟩
  · exact absurd hempty (h.booted (by simp [hop]))
  · exact ⟨[], older, htrace, List.not_mem_nil⟩

/-- The states that sequences of calls reach from a new manager. -/
abbrev Reached (sm : StateMachine σ) (passes : Nat) (garbage : Mii σ) : Manager σ → Prop :=
  Reachable (call sm passes) (fun _ _ => True) (ethMiiPhyMan garbage)

/-- Parameter changes are never lost, in every state that calls of the interface reach.

1. A pending change leaves the manager below `RunModeOperating`, with no completion time.
2. No call stops at the assertion of `restartStateMachine`, and no loop of the manager goes on
   for too long.
3. `runMode( rm )` ends with `runMode_ == rm`.
4. A setter stores its value. It does nothing for the value that is set already, and calls
   `changeParam` for any other.
5. A manager that operates has restarted the state machine since the latest change. -/
theorem param_changes (hsm : sm.Documented) {passes : Nat} {garbage : Mii σ} {m : Manager σ}
    (h : Reached sm passes garbage m) :
    (m.paramChanged = true →
      m.runMode.level < RunMode.operating.level ∧ m.lastCompleteTime = none) ∧
    (∀ c, call sm passes c m ≠ .error .restartStateMachine ∧
      call sm passes c m ≠ .error .tooLong) ∧
    (∀ rm m', call sm passes (.runMode rm) m = .ok ((), m') → m'.runMode = rm) ∧
    (∀ p m', call sm passes (.param p) m = .ok ((), m') →
      p.Set m'.mii ∧ (p.Set m.mii → m' = m) ∧
      (¬p.Set m.mii → m'.paramChanged = true ∧ m'.trace = .changed :: m.trace)) ∧
    (m.runMode = .operating → RestartedSinceChange m.trace) := by
  -- The invariant holds after the constructor, and every call keeps it.
  have hinv : Inv m := h.invariant Inv (inv_ethMiiPhyMan garbage) fun c s hs _ =>
    (call_sat hsm hs passes c).mono (fun _ _ => trivial) fun _ _ h => h
  refine ⟨fun hparam => ?_, fun c => ?_, fun rm m' hrun => ?_, fun p m' hrun => ?_,
    hinv.restartedSinceChange⟩
  · obtain ⟨hmode, htime⟩ := hinv.pending hparam
    refine ⟨?_, htime⟩
    by_contra habove
    exact hmode (operating_of_level habove)
  · have hsat := call_sat hsm hinv passes c
    exact ⟨fun herror => (hsat.fails_of_error herror).1 rfl,
      fun herror => (hsat.fails_of_error herror).2 rfl⟩
  · exact ((runMode_sat hinv rm).post_of_ok hrun).2
  · have hstores := (setter_sat p).post_of_ok hrun
    refine ⟨hstores.stored, hstores.same, fun hbefore => ?_⟩
    obtain ⟨-, mii, rfl⟩ := hstores.changes hbefore
    exact ⟨rfl, rfl⟩

/-! ### A machine with a queue -/

/-- A machine that is in a state and has events to process, the next one first. -/
structure Queue where
  current : State
  pending : List SmEvent

/-- The state that an event leads to. The comments beside the events name them.
`autoMakeProgress` only triggers a transition. -/
def stateOf : SmEvent → Option State
  | .initPhy => some .waitPhyInit
  | .waitLinkDown => some .waitLinkDown
  | .disabled => some .disabled
  | .waitConfigurationPush => some .waitConfigurationPush
  | .loopBackEnabled => some .loopbackEnabled
  | .stateWaitAutonegFinish => some .waitAutonegFinish
  | .waitAutonegFinish => some .waitAutonegFinish
  | .waitForAutonegErrorResolution => some .waitForAutonegErrorResolution
  | .autoMakeProgress => none

/-- What the functions of the manager see of the machine. -/
def queueEvents : StateMachine Queue where
  throwEvent event q := { q with pending := q.pending ++ [event] }
  state := Queue.current
  run := pure ()

/-- A step of the machine itself. -/
def ownStep (step : Queue → Queue) : ManagerM Queue Unit :=
  modify fun m => { m with mii := { m.mii with sm := step m.mii.sm } }

/-- Process events: enter the state that each leads to, or take the transition of the current
state. -/
def process : List SmEvent → ManagerM Queue Unit
  | [] => pure ()
  | event :: rest => do
      let m ← get
      match stateOf event with
      | some state => ownStep fun q => { q with current := state }
      | none => notify queueEvents (.transition m.mii.sm.current)
      process rest

/-- The machine with a queue. A run calls the function of the current state, and then it
processes the events that are pending. -/
def queued : StateMachine Queue :=
  { queueEvents with
    run := do
      let before ← get
      notify queueEvents (.functionBeforeRun before.mii.sm.current)
      let m ← get
      ownStep fun q => { q with pending := [] }
      process m.mii.sm.pending }

/-- The functions of the manager do not depend on the run of the machine. -/
theorem notify_queued (n : Notification) : notify queued n = notify queueEvents n := rfl

/-- A run that returns goes on with another run. -/
theorem runs_trans {m m' : Manager σ} {r : Except Assertion (Manager σ)}
    (h : Runs sm m (.ok m')) (h' : Runs sm m' r) : Runs sm m r := by
  generalize hend : (Except.ok m' : Except Assertion (Manager σ)) = r₀ at h
  induction h with
  | done m =>
      cases hend
      exact h'
  | error m => cases hend
  | own machine _ ih => exact .own machine (ih hend)
  | notified n hn _ ih => exact .notified n hn (ih hend)
  | stopped n hn => cases hend

/-- A program that is a run of the machine, from every manager. -/
def Behaves {α : Type} (prog : ManagerM Queue α) : Prop :=
  ∀ m, Runs queued m ((prog m).map Prod.snd)

/-- Two such programs one after the other. -/
theorem behaves_bind {α β : Type} {prog : ManagerM Queue α} {f : α → ManagerM Queue β}
    (h : Behaves prog) (hf : ∀ a, Behaves (f a)) : Behaves (prog >>= f) := by
  intro m
  have hprog := h m
  simp only [bind, StateT.bind, Except.bind]
  cases hrun : prog m with
  | error fn =>
      rw [hrun] at hprog
      exact hprog
  | ok r =>
      rw [hrun] at hprog
      exact runs_trans hprog (hf r.1 r.2)

/-- Looking at the manager. -/
theorem behaves_get : Behaves (get : ManagerM Queue (Manager Queue)) := fun m => .done m

/-- A step of the machine itself. -/
theorem behaves_ownStep (step : Queue → Queue) : Behaves (ownStep step) :=
  fun m => .own (step m.mii.sm) (.done _)

/-- A call of a function that the machine was set up with. -/
theorem behaves_notify (n : Notification) : Behaves (notify queueEvents n) := by
  intro m
  rw [← notify_queued]
  cases hrun : notify queued n m with
  | error fn => exact .stopped n hrun
  | ok r => exact .notified n hrun (.done _)

/-- The processing of any events. -/
theorem behaves_process (events : List SmEvent) : Behaves (process events) := by
  induction events with
  | nil => exact fun m => .done m
  | cons event rest ih =>
      refine behaves_bind behaves_get fun m => ?_
      cases stateOf event with
      | some state => exact behaves_bind (behaves_ownStep _) fun _ => ih
      | none => exact behaves_bind (behaves_notify _) fun _ => ih

/-- The machine with a queue does what the manager relies on. -/
theorem documented_queued : queued.Documented where
  run := behaves_bind behaves_get fun _ => behaves_bind (behaves_notify _) fun _ =>
    behaves_bind behaves_get fun _ => behaves_bind (behaves_ownStep _) fun _ =>
      behaves_process _

/-- A device that never answers. -/
def silent : HalRead where
  writeSynced := false
  readSynced := false
  capable := {}
  linkStatus := .down
  autoNegotiationComplete := false
  linkPartnerAdReg := {}
  linkPartner1000BasetHalfDuplexCapable := false
  linkPartner1000BasetFullDuplexCapable := false
  localTransmitterIsMaster := false
  noHcdLink := false
  linkDownEvents := 0
  spareControlEnable := false
  dpmDetectionEnable := false
  dpmStat := false
  mismtch := false

/-- Memory before the constructor runs, around a machine without a state or events. -/
def zeroed : Mii Queue where
  phyType := .null
  state := .null
  phyInitState := .null
  bcm5400PowerFixStep := 0
  brcm5400AutoNegErrorFixState := .null
  needToPushMoreData := false
  ethConfigurationMode := .disabled
  nextPageCapable := false
  permittedFlowControlMode := ∅
  permittedDuplex := ∅
  permittedLineSpeed := ∅
  permittedClockMode := .null
  localFaultIndication := .null
  connectorType := .null
  permittedLoopback := .null
  savedControlReg := {}
  savedAdReg := {}
  saved1000BasetControlReg := {}
  results :=
    { negotiationStatus := .notStarted
      negotiationError := .null
      remoteFaultIndication := .null
      linkStatus := .null
      lineSpeed := .null
      duplex := .null
      flowControlMode := .null
      clockMode := .null
      loopback := .null }
  hal := fun _ => silent
  reads := 0
  sm := { current := .null, pending := [] }

/-- A boot with a new loopback mode, and the first status query after it. -/
def bootAndQuery : List Call :=
  [.ethMiiPhyType .bcm5218, .halEthMiiDevice true, .param (.permittedLoopback .off),
    .runMode .operating, .linkStatus 0]

/-- The query takes the state machine through the initialization of the PHY, whose end restarts
it once more. -/
theorem param_changes_boot :
    ∃ m, Reached queued 8 zeroed m ∧ m.runMode = .operating ∧
      m.mii.sm.current = .waitLinkDown ∧
      m.trace = [.restarted, .restarted, .changed, .changed, .changed] ∧
      RestartedSinceChange m.trace := by
  have hend : ((performAll (call queued 8) bootAndQuery (ethMiiPhyMan zeroed)).toOption.map
      fun r => (r.2.runMode, r.2.mii.sm.current, r.2.trace)) =
        some (.operating, .waitLinkDown,
          [.restarted, .restarted, .changed, .changed, .changed]) := by decide +kernel
  cases hrun : performAll (call queued 8) bootAndQuery (ethMiiPhyMan zeroed) with
  | error fn =>
      rw [hrun] at hend
      cases hend
  | ok r =>
      rw [hrun] at hend
      simp only [Except.toOption, Option.map_some, Option.some.injEq, Prod.mk.injEq] at hend
      have h : Reached queued 8 zeroed r.2 := Reachable.start.performAll bootAndQuery hrun
      exact ⟨r.2, h, hend.1, hend.2.1, hend.2.2, (param_changes documented_queued h).2.2.2.2 hend.1⟩

end MyTestFiles.Proofs.PhyMan
