import MyTestFiles.Proofs.InlinePower.Review

/-!
# `MyTestFiles.Proofs.InlinePower.StateMachine`: runs of the state machine

A run starts from a fresh port and takes reviews, changes of the configuration and denials of
power by the upper layer, in any order. `portStep_sat` is the step lemma.

`assertions_hold` proves that no assertion of the four functions fails in a run whose reviews
meet `ReviewMeets`, and `not_alwaysHold` that this is needed: a device of an IEEE class that is
denied power fails an assertion of `restartCiscoDiscovery`, which knows of Cisco devices only.

`power_state` proves that in a run without controller errors, the controller is told to apply
power only for a port with power, in the states after the grant.

* The step lemma is assembled from `review_sat` and the lemmas of `Proofs.InlinePower.Functions`.
  A change of the configuration touches nothing that the invariant speaks of, and a denial by the
  upper layer is `takePower_sat`.
* `StepMeets` is a condition on the review and on the state before it: a port that is enabled and
  not in state Off is in state Auto, and a device that is denied power is a Cisco device.
* `power_state` asks for no error of the controller in any step, since a failed write leaves the
  controller with its old setting.
-/

set_option autoImplicit false

namespace MyTestFiles.Proofs.InlinePower

open MyTestFiles.Lib
open MyTestFiles.InlinePower

section Step
variable {site : Site Negotiator} {fails : Fn → Prop}

/-- What the assertions of a step need. -/
def StepMeets : PortOp → Site Negotiator → Prop
  | .review e, site => ReviewMeets e site
  | .configure _, _ | .denyPower _, _ => True

/-- A step in which no call of the controller reports an error. -/
def StepErrorFree : PortOp → Site Negotiator → Prop
  | .review e, _ => NoErrors e
  | .configure _, _ | .denyPower _, _ => True

/-- The upper layer takes the power of a port, which has some. -/
theorem takePower_sat (hunw : Unwatched fails) {e : Review} (h : Inv site) :
    Sat (portStep (.denyPower e)) site fails fun _ site' =>
      Inv site' ∧ (PowerSetting site → PowerSetting site') := by
  simp only [portStep, setDenied, sat_bind, sat_get]
  refine (reviewDelete_sat hunw).mono (fun _ h => h) ?_
  rintro _ site₁ ⟨hpos, hpp, hrest, hdte⟩
  rw [sub_self] at hpp
  have hclass : site₁.pp.dpmPdClass = site.pp.dpmPdClass := by rw [hpp]
  have hzero : site₁.pp.dpmPdPower = 0 := by rw [hpp]
  have hstate : site₁.rest.dpmState = site.rest.dpmState := by rw [hrest]
  rw [sat_setPort]
  refine ⟨?_, fun hsetting hon => ?_⟩
  · -- a port with power is in one of the states after the grant
    rw [Inv] at h ⊢
    have hmode : ModeOn site → ModeOn site₁ := by
      intro hmode
      rwa [ModeOn, hrest]
    rw [hstate]
    cases hcase : site.rest.dpmState with
    | null | off =>
        rw [hcase] at h
        exact absurd h.2.1 hpos.ne'
    | detecting =>
        rw [hcase] at h
        exact absurd h.2.1 hpos.ne'
    | waitForLinkup =>
        rw [hcase] at h
        rcases h.2 with ⟨-, hnone⟩ | ⟨hdevice, -⟩
        · exact absurd hnone hpos.ne'
        · exact ⟨hmode h.1, Or.inr ⟨by rwa [hclass], Or.inr ⟨rfl, hzero⟩⟩⟩
    | linkup =>
        rw [hcase] at h
        rcases h.2 with ⟨-, hnone⟩ | ⟨hdevice, -⟩
        · exact absurd hnone hpos.ne'
        · exact ⟨hmode h.1, Or.inr ⟨by rwa [hclass], hzero.ge⟩⟩
  · have hon₁ : site₁.rest.dtePowerConfig = .on := hon
    have hon₀ : site.rest.dtePowerConfig = .on := by
      rcases hdte with hkept | hturned
      · rwa [← hkept]
      · rw [hturned] at hon₁
        cases hon₁
    obtain ⟨hstates, hdevice⟩ := hsetting hon₀
    rw [← hstate] at hstates
    rw [← hclass] at hdevice
    exact ⟨hstates, hdevice⟩

/-- A step keeps the invariant, and without controller errors the power setting. -/
theorem portStep_sat (hunw : Unwatched fails) (op : PortOp) (h : Inv site)
    (hok : (∀ fn, fails fn) ∨ StepMeets op site) :
    Sat (portStep op) site fails fun _ site' =>
      Inv site' ∧ (StepErrorFree op site → PowerSetting site → PowerSetting site') := by
  cases op with
  | review e =>
      refine (review_sat hunw h hok).mono (fun _ h => h) ?_
      rintro _ site' ⟨hinv, hpowered⟩
      exact ⟨hinv, fun hno hsetting => (hpowered hno hsetting).1⟩
  | configure config => exact ⟨h, fun _ hsetting => hsetting⟩
  | denyPower e =>
      refine (takePower_sat hunw h).mono (fun _ h => h) ?_
      rintro _ site' ⟨hinv, hsetting⟩
      exact ⟨hinv, fun _ => hsetting⟩

end Step

/-! ### Runs -/

section Run
variable {site₀ site site' : Site Negotiator}

/-- A fresh port: nothing was detected, and no power was allocated. -/
def FreshPort (site : Site Negotiator) : Prop := site.rest.dpmState = .null ∧ Idle site.pp

/-- A fresh port meets the invariant. -/
theorem FreshPort.inv (h : FreshPort site) : Inv site := by
  rw [Inv, h.1]
  exact h.2

/-- The assertions of the four functions hold in a step. -/
def AssertionsHold (op : PortOp) (site : Site Negotiator) : Prop :=
  ∀ fn, portStep op site = .error fn → ¬ Watched fn

/-- In a run whose reviews meet what their assertions need, the assertions hold. -/
theorem assertions_hold {op : PortOp} (hfresh : FreshPort site₀)
    (hrun : Reachable portStep StepMeets site₀ site) (hop : StepMeets op site) :
    AssertionsHold op site := by
  have hinv : Inv site := by
    refine hrun.invariant Inv hfresh.inv ?_
    intro op site h hop
    exact (portStep_sat (fun _ _ => trivial) op h (Or.inr hop)).mono (fun _ h => h) fun _ _ h => h.1
  have hstep : Sat (portStep op) site (fun fn => ¬ Watched fn) _ :=
    portStep_sat (fun _ h => h) op hinv (Or.inr hop)
  intro fn hfail
  exact hstep.fails_of_error hfail

/-- A review that finds a Cisco device, for which there is power. -/
def ciscoReview : Review where
  microTime _ := 0
  modeSynced := true
  discoverySynced := true
  statusSynced := true
  unknownSynced := true
  otherWrites := false
  reviewWrites := false
  autoNegWrites := false
  dpmStat := true
  mismtch := false
  dpmPortClass := .cisco
  linkStatus := .down
  linkStatusLater := .down
  dtePowerStatus := .on
  dtePowerStatusOk := true
  linkWatchOk := true
  powerWrite := .ok
  laterWrite := .ok
  resetWrite := .ok
  moduleAnswer := 6000
  uninitialized := 0
  notifyTurnsOff := false
  notifyOk := true

/-- A fresh port in state Auto that negotiates. -/
def freshSite : Site Negotiator where
  pp := ⟨⟨true, .auto, 20000, true, 0, 0, 0⟩, .null, 0, false⟩
  rest := ⟨.null, false, none, none, none, true, 0, 0, 0, none, ⟨false, false, true⟩, .off, 0⟩

/-- The port of the example is fresh. -/
theorem freshSite_fresh : FreshPort freshSite := ⟨rfl, rfl, rfl, rfl⟩

/-- The first review configures the discovery mode, the second starts discovery, and the third
one finds a device. -/
theorem assertions_hold_ciscoDevice : ∃ site : Site Negotiator,
    site.rest.dpmState = .detecting ∧ AssertionsHold (.review ciscoReview) site := by
  have hrun : Reachable portStep StepMeets freshSite _ :=
    .next (.review ciscoReview)
      (.next (.review ciscoReview) .start (fun _ _ => ⟨rfl, trivial⟩) rfl)
      (fun _ _ => ⟨rfl, trivial⟩) rfl
  refine ⟨_, rfl, assertions_hold freshSite_fresh hrun ?_⟩
  intro _ _
  refine ⟨rfl, fun _ => ⟨by rintro ⟨⟩, fun _ => ⟨fun _ => ⟨by decide, by decide⟩, fun _ => rfl⟩⟩⟩

/-- The administrative state becomes Auto or Off. -/
def AutoOrOff : PortOp → Site Negotiator → Prop
  | .configure config, _ => config.dpmAdminState ≠ .static
  | .review _, _ | .denyPower _, _ => True

/-- The assertions hold in every run. -/
def AlwaysHold : Prop :=
  ∀ (site₀ site : Site Negotiator) (op : PortOp), FreshPort site₀ →
    site₀.pp.dpmAdminState ≠ .static → Reachable portStep AutoOrOff site₀ site →
    AutoOrOff op site → AssertionsHold op site

/-- A device of class IEEE0 is denied power: discovery restarts with its class. -/
theorem not_alwaysHold : ¬ AlwaysHold := by
  intro h
  have hrun : Reachable portStep AutoOrOff freshSite _ :=
    .next (.review ciscoReview) (.next (.review ciscoReview) .start trivial rfl) trivial rfl
  have hholds := h freshSite _
    (.review { ciscoReview with dpmPortClass := .ieee0, moduleAnswer := 0 })
    freshSite_fresh (by decide) hrun trivial
  exact hholds .restartCiscoDiscovery rfl trivial

/-- In a run without controller errors, after each review that completes: the controller is
told to apply power only for a port with power in one of the states after the grant, and in the
other states the port has no power. -/
theorem power_state {e : Review} (hfresh : FreshPort site₀)
    (hdte : site₀.rest.dtePowerConfig = .off) (hrun : Reachable portStep StepErrorFree site₀ site)
    (hno : NoErrors e) (hreview : runDpmReview e site = .ok ((), site')) :
    (site'.rest.dtePowerConfig = .on → site'.pp.dpmPdPower > 0 ∧
      (site'.rest.dpmState = .waitForLinkup ∨ site'.rest.dpmState = .linkup)) ∧
    (site'.rest.dpmState = .null ∨ site'.rest.dpmState = .off ∨
      site'.rest.dpmState = .detecting → site'.pp.dpmPdPower = 0) := by
  -- the invariant and the power setting hold before the review
  obtain ⟨hinv, hsetting⟩ : Inv site ∧ PowerSetting site := by
    refine hrun.invariant (fun site => Inv site ∧ PowerSetting site)
      ⟨hfresh.inv, (powered_of_off hdte).1⟩ ?_
    rintro op site ⟨h, hsetting⟩ hop
    refine (portStep_sat (fun _ _ => trivial) op h (Or.inl fun _ => trivial)).mono
      (fun _ h => h) ?_
    rintro _ site' ⟨hinv, hkept⟩
    exact ⟨hinv, hkept hop hsetting⟩
  have hstep : Sat (runDpmReview e) site (fun _ => True) _ :=
    review_sat (fun _ _ => trivial) hinv (Or.inl fun _ => trivial)
  obtain ⟨hinv', hpowered⟩ := hstep.post_of_ok hreview
  obtain ⟨hsetting', hpower⟩ := hpowered hno hsetting
  refine ⟨fun hon => ⟨hpower hon, (hsetting' hon).1⟩, ?_⟩
  rw [Inv] at hinv'
  -- in the three states the invariant says that there is no power
  rintro (hstate | hstate | hstate)
  · rw [hstate] at hinv'
    exact hinv'.2.1
  · rw [hstate] at hinv'
    exact hinv'.2.1
  · rw [hstate] at hinv'
    exact hinv'.2.1

/-- The device gets its power in the third review. -/
theorem power_state_ciscoDevice : ∃ site' : Site Negotiator,
    site'.rest.dtePowerConfig = .on ∧ site'.pp.dpmPdPower > 0 := by
  have hno : NoErrors ciscoReview := ⟨rfl, rfl, rfl, rfl, rfl, rfl⟩
  have hrun : Reachable portStep StepErrorFree freshSite _ :=
    .next (.review ciscoReview) (.next (.review ciscoReview) .start hno rfl) hno rfl
  exact ⟨_, rfl, ((power_state freshSite_fresh rfl hrun hno rfl).1 rfl).1⟩

end Run

end MyTestFiles.Proofs.InlinePower
