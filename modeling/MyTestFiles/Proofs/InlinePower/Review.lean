import MyTestFiles.Proofs.InlinePower.Functions

/-!
# `MyTestFiles.Proofs.InlinePower.Review`: the invariant of the state machine

`Inv` is what holds of a port between two reviews, one clause for each state. Every review that
completes keeps it (`review_sat`), and with it the power setting of the controller: after a
review without controller errors the controller is told to apply power only for a device that
was granted some (`Powered`).

In the states Null and Off nothing is known of a device. In Detecting no device has power, and the
class on the port is that of a device that was denied its power, if there was one. In
WaitForLinkup and Linkup the port has an unknown device without power, or a device whose power is
what it was granted and has not been denied since.

A review is proved branch by branch in the order of the source. The answers of the controller, of
the pool and of the link are parameters, and `review_sat` is about any of them.

* `Sat` is the law of a piece of the source: it ends with the condition on the site, or stops at
  one of the assertions that are allowed to fail.
* `Same` relates two sites that agree in all that `Inv` and `Powered` look at. Most calls of the
  outside change nothing else.
-/

set_option autoImplicit false

namespace MyTestFiles.Proofs.InlinePower

open MyTestFiles.Lib
open MyTestFiles.InlinePower

/-! ### The invariant -/

/-- A class that asks for power. -/
def IsDevice (pdClass : PimDpmPdClass) : Prop := pdClass ≠ .null ∧ pdClass ≠ .unknown

/-- States Null and Off: nothing is known of a device. -/
def Idle (pp : PimPhyport) : Prop :=
  pp.dpmPdClass = .null ∧ pp.dpmPdPower = 0 ∧ pp.dpmPdPowerDenied = false

/-- State Detecting: no device has power. The class is that of a denied device, if any. -/
def DetectingPort (pp : PimPhyport) : Prop :=
  pp.dpmPdPower = 0 ∧ RestartClass pp

/-- State WaitForLinkup: an unknown device without power, or a device with power unless it was
denied since. -/
def WaitingPort (pp : PimPhyport) : Prop :=
  (pp.dpmPdClass = .unknown ∧ pp.dpmPdPower = 0) ∨
    (IsDevice pp.dpmPdClass ∧ ((pp.dpmPdPowerDenied = false ∧ pp.dpmPdPower > 0) ∨
      (pp.dpmPdPowerDenied = true ∧ pp.dpmPdPower = 0)))

/-- State Linkup. -/
def LinkedPort (pp : PimPhyport) : Prop :=
  (pp.dpmPdClass = .unknown ∧ pp.dpmPdPower = 0) ∨ (IsDevice pp.dpmPdClass ∧ 0 ≤ pp.dpmPdPower)

/-- The discovery mode is configured, and written to the PHY. -/
def ModeOn (site : Site Negotiator) : Prop :=
  site.rest.dpmDiscoveryModeConfigured = true ∧ site.rest.phy.spareControlEnable = true

/-- The invariant. -/
def Inv (site : Site Negotiator) : Prop :=
  match site.rest.dpmState with
  | .null | .off => Idle site.pp
  | .detecting => ModeOn site ∧ DetectingPort site.pp
  | .waitForLinkup => ModeOn site ∧ WaitingPort site.pp
  | .linkup => ModeOn site ∧ LinkedPort site.pp

/-- The controller is told to apply power only in the states after the grant, to a device. -/
def PowerSetting (site : Site Negotiator) : Prop :=
  site.rest.dtePowerConfig = .on →
    (site.rest.dpmState = .waitForLinkup ∨ site.rest.dpmState = .linkup) ∧
      IsDevice site.pp.dpmPdClass

/-- The controller is told to apply power only where it is accounted for. -/
def Powered (site : Site Negotiator) : Prop :=
  PowerSetting site ∧ (site.rest.dtePowerConfig = .on → site.pp.dpmPdPower > 0)

/-- No call of the controller reports an error. -/
structure NoErrors (e : Review) : Prop where
  powerWrite : e.powerWrite = .ok
  laterWrite : e.laterWrite = .ok
  resetWrite : e.resetWrite = .ok
  linkWatchOk : e.linkWatchOk = true
  dtePowerStatusOk : e.dtePowerStatusOk = true
  notifyOk : e.notifyOk = true

/-- What a review does that completes. -/
structure Good (e : Review) (site site' : Site Negotiator) : Prop where
  inv : Inv site'
  powered : NoErrors e → PowerSetting site → Powered site'

section Invariant
variable {site site' : Site Negotiator} {e : Review}

/-- The power of a port is never negative. -/
theorem Inv.power_nonneg (h : Inv site) : 0 ≤ site.pp.dpmPdPower := by
  simp only [Inv] at h
  split at h
  · exact h.2.1.ge
  · exact h.2.1.ge
  · exact h.2.1.ge
  · rcases h.2 with ⟨-, hzero⟩ | ⟨-, ⟨-, hpos⟩ | ⟨-, hzero⟩⟩
    · exact hzero.ge
    · exact hpos.le
    · exact hzero.ge
  · rcases h.2 with ⟨-, hzero⟩ | ⟨-, hnonneg⟩
    · exact hzero.ge
    · exact hnonneg

/-- The invariant does not look at what `Same` leaves open. -/
theorem Inv.same (h : Inv site) (hsame : Same site site') : Inv site' := by
  simp only [Inv, ModeOn] at h ⊢
  rwa [hsame.dpmState, hsame.pp, hsame.configured, hsame.mode]

/-- Neither does the power setting. -/
theorem PowerSetting.same (h : PowerSetting site) (hsame : Same site site') :
    PowerSetting site' := by
  simp only [PowerSetting] at h ⊢
  rwa [hsame.dpmState, hsame.pp, hsame.dtePower]

/-- Neither does the condition on the controller. -/
theorem Powered.same (h : Powered site) (hsame : Same site site') : Powered site' := by
  refine ⟨h.1.same hsame, ?_⟩
  rw [hsame.dtePower, hsame.pp]
  exact h.2

/-- Changes of other attributes before and after. -/
theorem Good.same {site₀ site₁ : Site Negotiator} (h : Good e site site')
    (hbefore : Same site₀ site) (hafter : Same site' site₁) : Good e site₀ site₁ :=
  ⟨h.inv.same hafter, fun hno hsetting => (h.powered hno (hsetting.same hbefore)).same hafter⟩

/-- A site agrees with itself. -/
theorem Same.refl (site : Site Negotiator) : Same site site := ⟨rfl, rfl, rfl, rfl, rfl⟩

/-- A controller that is told to apply no power needs no grant. -/
theorem powered_of_off (h : site.rest.dtePowerConfig = .off) : Powered site :=
  ⟨fun hon => absurd (h.symm.trans hon) (by decide),
    fun hon => absurd (h.symm.trans hon) (by decide)⟩

/-- A reset ends in state Off. -/
theorem good_of_reset {site₀ : Site Negotiator} (h : Reset e.resetWrite site₀ site') :
    Good e site site' := by
  refine ⟨?_, fun hno _ => powered_of_off (h.dtePower hno.resetWrite)⟩
  rw [Inv, h.dpmState, h.pp]
  exact ⟨rfl, rfl, rfl⟩

/-- A review that ends in a state without power. -/
theorem good_of_detecting (hstate : site'.rest.dpmState = .detecting) (hmode : ModeOn site')
    (hport : DetectingPort site'.pp)
    (hdte : NoErrors e → PowerSetting site → site'.rest.dtePowerConfig = .off) :
    Good e site site' := by
  refine ⟨?_, fun hno hsetting => powered_of_off (hdte hno hsetting)⟩
  rw [Inv, hstate]
  exact ⟨hmode, hport⟩

/-- Outside the states after the grant the controller is off. -/
theorem PowerSetting.off_of_state (h : PowerSetting site)
    (hwait : site.rest.dpmState ≠ .waitForLinkup) (hlink : site.rest.dpmState ≠ .linkup) :
    site.rest.dtePowerConfig = .off := by
  cases hdte : site.rest.dtePowerConfig with
  | off => rfl
  | on =>
      rcases (h hdte).1 with hstate | hstate
      · exact absurd hstate hwait
      · exact absurd hstate hlink

/-- The controller is off without a device. -/
theorem PowerSetting.off_of_class (h : PowerSetting site) (hclass : ¬ IsDevice site.pp.dpmPdClass) :
    site.rest.dtePowerConfig = .off := by
  cases hdte : site.rest.dtePowerConfig with
  | off => rfl
  | on => exact absurd (h hdte).2 hclass

/-- For an unknown device the controller is told to apply no power. -/
theorem PowerSetting.off_of_unknown (h : PowerSetting site)
    (hclass : site.pp.dpmPdClass = .unknown) : site.rest.dtePowerConfig = .off :=
  h.off_of_class fun hisDevice => hisDevice.2 hclass

/-- The mode that is written to the PHY does not read back as off. -/
theorem ModeOn.ne_off (hmode : ModeOn site) {setting : Setting}
    (hoff : setting = .off → site.rest.phy.spareControlEnable = false) : setting ≠ .off := by
  intro hset
  have hread := hmode.2.symm.trans (hoff hset)
  cases hread

/-! A port that waits for its link or has it is unknown and has no power, or it has a device. -/

/-- Between two reviews the class of a port is never the null class. -/
theorem class_ne_null {pp : PimPhyport} {P : Prop}
    (hport : (pp.dpmPdClass = .unknown ∧ pp.dpmPdPower = 0) ∨ (IsDevice pp.dpmPdClass ∧ P)) :
    pp.dpmPdClass ≠ .null := by
  intro hclass
  rcases hport with ⟨hunknown, -⟩ | ⟨hisDevice, -⟩
  · rw [hclass] at hunknown
    cases hunknown
  · exact hisDevice.1 hclass

/-- A port with an unknown device has no power. -/
theorem power_of_unknown {pp : PimPhyport} {P : Prop}
    (hport : (pp.dpmPdClass = .unknown ∧ pp.dpmPdPower = 0) ∨ (IsDevice pp.dpmPdClass ∧ P))
    (hclass : pp.dpmPdClass = .unknown) : pp.dpmPdPower = 0 := by
  rcases hport with ⟨-, hpower⟩ | ⟨hisDevice, -⟩
  · exact hpower
  · exact absurd hclass hisDevice.2

/-- Discovery restarts, and the state is Detecting. -/
theorem rediscover_sat {site₀ : Site Negotiator} {fails : Fn → Prop} (fn : Fn) (hmode : ModeOn site)
    (hclass : fails fn ∨ RestartClass site.pp) (hpower : site.pp.dpmPdPower = 0)
    (hoff : NoErrors e → PowerSetting site₀ → site.rest.dtePowerConfig = .off) :
    Sat (restart fn e) site fails fun _ site₁ =>
      Sat (setState .detecting) site₁ fails fun _ => Good e site₀ := by
  refine (restart_sat fn hclass hpower).mono (fun _ h => h) ?_
  rintro _ site₁ ⟨hsame, hclass'⟩
  rw [setState, sat_setNegotiator]
  refine good_of_detecting rfl ⟨?_, ?_⟩ ⟨?_, ?_⟩ fun hno hsetting => ?_
  · exact hsame.configured.trans hmode.1
  · exact hsame.mode.trans hmode.2
  · rw [hsame.pp]
    exact hpower
  · rw [hsame.pp]
    exact hclass'
  · exact hsame.dtePower.trans (hoff hno hsetting)

end Invariant

/-! ### States without a device -/

section Idle
variable {site : Site Negotiator} {fails : Fn → Prop} {e : Review}

/-- A disabled port is reset. -/
theorem reviewDisabled_sat (hunw : Unwatched fails) (h : Inv site) :
    Sat (reviewDisabled e) site fails fun _ => Good e site := by
  -- Leaving the discovery mode touches neither the port nor the state.
  have hleave : Sat leaveDiscoveryMode site fails fun _ site' => site'.pp = site.pp ∧
      site'.rest.dpmState = site.rest.dpmState ∧
      site'.rest.dtePowerConfig = site.rest.dtePowerConfig := by
    simp [leaveDiscoveryMode, dpmDeviceDiscoveryMode, forcedDpmDeviceDiscovery,
      forcedDpmDeviceDiscoveryModeEnable, sat_ite]
  simp only [reviewDisabled, sat_bind]
  refine hleave.mono (fun _ h => h) ?_
  rintro _ site₁ ⟨hpp, hstate, hdte⟩
  have hreset : Sat (resetUnlessOff e) site₁ fails fun _ site' =>
      Idle site'.pp ∧ Good e site site' := by
    simp only [resetUnlessOff, sat_bind, sat_get]
    by_cases hoff : site₁.rest.dpmState = .off
    · -- nothing is known of a device in state Off
      rw [if_neg (not_not.mpr hoff), sat_pure]
      have hidle : Idle site₁.pp := by
        rw [Inv, ← hstate, hoff, ← hpp] at h
        exact h
      refine ⟨hidle, ?_, ?_⟩
      · rw [Inv, hoff]
        exact hidle
      · intro _ hsetting
        rw [hstate] at hoff
        exact powered_of_off (hdte.trans (hsetting.off_of_state (by rw [hoff]; decide)
          (by rw [hoff]; decide)))
    · rw [if_pos hoff]
      refine (resetState_sat hunw (by rw [hpp]; exact h.power_nonneg)).mono (fun _ h => h) ?_
      intro _ site' hreset
      exact ⟨by rw [hreset.pp]; exact ⟨rfl, rfl, rfl⟩, good_of_reset hreset⟩
  refine hreset.mono (fun _ h => h) ?_
  rintro _ site₂ ⟨⟨hclass, hpower, hdenied⟩, hgood⟩
  simp only [sat_get, sat_assert, runNonDpmReview, phyWrites, sat_setPhy]
  refine ⟨fun h => absurd hclass h.2, fun _ => ⟨fun h => absurd hpower h.2, fun _ =>
    ⟨fun h => absurd hdenied h.2, fun _ => ?_⟩⟩⟩
  exact hgood.same (Same.refl site) ⟨rfl, rfl, rfl, rfl, rfl⟩

/-- States Null and Off: discovery starts once the hardware is ready. -/
theorem reviewOff_sat (hunw : Unwatched fails) (hidle : Idle site.pp)
    (hstate : site.rest.dpmState = .null ∨ site.rest.dpmState = .off) :
    Sat (reviewOff e) site fails fun _ => Good e site := by
  obtain ⟨hclass, hpower, hdenied⟩ := hidle
  have hoff : PowerSetting site → site.rest.dtePowerConfig = .off := by
    intro hsetting
    rcases hstate with hstate | hstate
    · exact hsetting.off_of_state (by rw [hstate]; decide) (by rw [hstate]; decide)
    · exact hsetting.off_of_state (by rw [hstate]; decide) (by rw [hstate]; decide)
  -- The invariant of both states looks at the port only.
  have hinv : ∀ site' : Site Negotiator, site'.rest.dpmState = site.rest.dpmState →
      site'.pp = site.pp → Inv site' := by
    intro site' hstate' hpp
    rw [Inv, hstate', hpp]
    rcases hstate with hstate | hstate
    · rw [hstate]
      exact ⟨hclass, hpower, hdenied⟩
    · rw [hstate]
      exact ⟨hclass, hpower, hdenied⟩
  simp only [reviewOff, runNonDpmReview, phyWrites, sat_bind, sat_setPhy, sat_get, sat_assert]
  refine ⟨fun h => absurd hclass h.2, fun _ => ⟨fun h => absurd hpower h.2, fun _ =>
    ⟨fun h => absurd hdenied h.2, fun _ => ?_⟩⟩⟩
  by_cases hconfigured : site.rest.dpmDiscoveryModeConfigured = true
  · -- the discovery mode was configured by an earlier review
    rw [if_neg (by simpa using hconfigured), sat_bind]
    refine (mode_sat e.modeSynced).mono (fun _ h => h) ?_
    rintro setting _ ⟨rfl, hon, -⟩
    by_cases hset : setting = .on
    · rw [if_pos hset, sat_ite]
      refine ⟨fun _ => ?_, fun _ => ?_⟩
      · refine (resetState_sat hunw (by exact hpower.ge)).mono (fun _ h => h) ?_
        intro _ site' hreset
        exact good_of_reset hreset
      · simp only [sat_bind, restartDiscovery]
        exact rediscover_sat _ ⟨hconfigured, hon hset⟩ (Or.inr (Or.inl hclass)) hpower
          fun _ hsetting => hoff hsetting
    · rw [if_neg hset, sat_pure]
      exact ⟨hinv _ rfl rfl, fun _ hsetting => powered_of_off (hoff hsetting)⟩
  -- Where the mode is not configured yet, the review configures it and ends.
  · rw [if_pos (by simpa using hconfigured)]
    simp only [dpmDeviceDiscoveryMode, forcedDpmDeviceDiscovery,
      forcedDpmDeviceDiscoveryModeEnable, sat_bind, sat_ite, sat_setPhy, sat_setNegotiator]
    refine ⟨fun _ => ?_, fun h => absurd trivial h⟩
    exact ⟨hinv _ rfl rfl, fun _ hsetting => powered_of_off (hoff hsetting)⟩

end Idle

/-! ### State Detecting -/

section Detecting
variable {site site₀ : Site Negotiator} {fails : Fn → Prop} {e : Review} {w : MilliWatts}

/-- Every class of a device asks for some power. -/
theorem requestPower_pos {pdClass : PimDpmPdClass} (h : IsDevice pdClass) :
    requestPower pdClass > 0 := by
  cases pdClass with
  | null => exact absurd rfl h.1
  | unknown => exact absurd rfl h.2
  | _ => decide

/-- A device with all the power it asked for. -/
theorem applyPower_sat (hunw : Unwatched fails) (hmode : ModeOn site)
    (hdevice : IsDevice site.pp.dpmPdClass) (hpower : site.pp.dpmPdPower = w) (hw : w > 0)
    (hok : fails .runDpmReview ∨
      (site.rest.dtePowerConfig ≠ .on ∧ e.powerWrite ≠ .errorLost)) :
    Sat (applyPower e w) site fails fun _ => Good e site₀ := by
  simp only [applyPower, setDenied, sat_bind, sat_setPort, sat_get, sat_assert, sat_writeDtePower]
  refine ⟨fun h => absurd hpower h.2, fun _ => ⟨?_, fun _ => ⟨?_, fun hassert => ?_⟩⟩⟩
  · rintro ⟨-, hon⟩
    exact hok.elim id fun hmeets => absurd hmeets.1 hon
  · rintro ⟨-, hon⟩
    exact hok.elim id fun hmeets => absurd (if_neg hmeets.2) hon
  · -- what the assertion behind the write says
    have hon : (if e.powerWrite = .errorLost then site.rest.dtePowerConfig else .on) = .on := by
      by_contra hne
      exact hassert ⟨trivial, hne⟩
    by_cases hwrite : e.powerWrite = .ok
    · -- the write went through, so the port waits for its link
      rw [if_neg (by simpa using hwrite)]
      simp only [forcedDpmDeviceDiscovery, sat_bind, sat_setPhy]
      refine applyUsersConfig_sat.mono (fun _ h => h) ?_
      intro _ site₁ hsame
      simp only [sat_setNegotiator, dpmLinkupTimerStart, setState]
      have hpp := hsame.pp
      have hclass : IsDevice site₁.pp.dpmPdClass := by rwa [hpp]
      have hpos : site₁.pp.dpmPdPower > 0 := by
        rw [hpp]
        exact hpower ▸ hw
      refine ⟨⟨⟨?_, ?_⟩, Or.inr ⟨hclass, Or.inl ⟨?_, hpos⟩⟩⟩,
        fun _ _ => ⟨fun _ => ?_, fun _ => hpos⟩⟩
      · exact hsame.configured.trans hmode.1
      · exact hsame.mode.trans hmode.2
      · rw [hpp]
      · exact ⟨Or.inl rfl, hclass⟩
    · -- the write was in error, and the port starts over
      rw [if_pos (by simpa using hwrite)]
      refine (resetState_sat hunw (by rw [hpower]; exact hw.le)).mono (fun _ h => h) ?_
      intro _ site' hreset
      exact good_of_reset hreset

/-- A device asks for power. Only a Cisco device may be denied. -/
theorem requestDevicePower_sat (hunw : Unwatched fails) (hstate : site.rest.dpmState = .detecting)
    (hmode : ModeOn site) (hauto : site.pp.dpmAdminState = .auto)
    (hdevice : IsDevice site.pp.dpmPdClass) (hpower : site.pp.dpmPdPower = 0) (hw : w > 0)
    (hoff : NoErrors e → PowerSetting site₀ → site.rest.dtePowerConfig = .off)
    (hok : (∀ fn, fails fn) ∨
      ((Granted e w site → site.rest.dtePowerConfig ≠ .on ∧ e.powerWrite ≠ .errorLost) ∧
        (Denied e w site → site.pp.dpmPdClass = .cisco))) :
    Sat (requestDevicePower e w) site fails fun _ => Good e site₀ := by
  simp only [requestDevicePower, sat_bind]
  refine (reviewNew_sat hunw hauto hpower).mono (fun _ h => h) ?_
  rintro power site₁ ⟨hrest, ⟨hgranted, rfl, hpp⟩ | ⟨hdenied, rfl, hpp⟩⟩
  · -- granted in full: the power is applied
    rw [if_neg (not_not.mpr rfl)]
    refine applyPower_sat hunw ?_ (by rwa [hpp]) (by rw [hpp]) hw ?_
    · rwa [ModeOn, hrest]
    · rw [hrest]
      exact hok.imp (fun hall => hall _) fun hmeets => hmeets.1 hgranted
  · -- denied: the two assertions are about the answer, and discovery starts again
    rw [if_pos hw.ne]
    simp only [sat_bind, sat_get, sat_assert]
    refine ⟨fun h => absurd trivial h.2, fun _ => ⟨?_, fun _ => ⟨?_, fun _ => ?_⟩⟩⟩
    · rintro ⟨-, hne⟩
      exact absurd (by rw [hpp]; exact hpower) hne
    · rintro ⟨-, hne⟩
      exact absurd (by rw [hpp]) hne
    -- Discovery starts again, and asserts the class of the port.
    · have hclass : fails .restartCiscoDiscovery ∨ RestartClass site₁.pp := by
        refine hok.imp (fun hall => hall _) fun hmeets => Or.inr ?_
        rw [hpp]
        exact ⟨hmeets.2 hdenied, rfl⟩
      refine (restart_sat _ hclass (by rw [hpp]; exact hpower)).mono (fun _ h => h) ?_
      rintro _ site' ⟨hsame, hclass'⟩
      refine good_of_detecting ?_ ?_ ?_ ?_
      · rw [hsame.dpmState, hrest]
        exact hstate
      · rwa [ModeOn, hsame.configured, hsame.mode, hrest]
      · rw [hsame.pp]
        exact ⟨by rw [hpp]; exact hpower, hclass'⟩
      · intro hno hsetting
        rw [hsame.dtePower, hrest]
        exact hoff hno hsetting

/-- An unknown device. Its assertion needs discovery to be on still. -/
theorem awaitUnknown_sat (hmode : ModeOn site) (hclass : site.pp.dpmPdClass = .unknown)
    (hpower : site.pp.dpmPdPower = 0) (hdiscovering : fails .runDpmReview ∨ Discovering site)
    (hoff : NoErrors e → PowerSetting site₀ → site.rest.dtePowerConfig = .off) :
    Sat (awaitUnknown e) site fails fun _ => Good e site₀ := by
  simp only [awaitUnknown, setDenied, sat_bind, sat_setPort]
  refine (discovery_sat e.unknownSynced).mono (fun _ h => h) ?_
  rintro setting _ ⟨rfl, hon⟩
  simp only [sat_assert, forcedDpmDeviceDiscovery, sat_setPhy]
  refine ⟨?_, fun _ => ?_⟩
  · rintro ⟨-, hne⟩
    -- the PHY still reads back as discovering
    rcases hdiscovering with hfails | ⟨hsync, hdetection⟩
    · exact hfails
    · refine absurd (hon.mpr ⟨?_, hdetection⟩) hne
      show (site.rest.phy.inSync || e.unknownSynced) = true
      rw [hsync, Bool.true_or]
  · -- discovery is turned off, and the port waits for its link without power
    refine applyUsersConfig_sat.mono (fun _ h => h) ?_
    intro _ site₁ hsame
    simp only [sat_setNegotiator, dpmLinkupTimerStart, setState]
    refine ⟨⟨⟨?_, ?_⟩, Or.inl ⟨?_, ?_⟩⟩, fun hno hsetting => powered_of_off ?_⟩
    · exact hsame.configured.trans hmode.1
    · exact hsame.mode.trans hmode.2
    · rw [hsame.pp]
      exact hclass
    · rw [hsame.pp]
      exact hpower
    · exact hsame.dtePower.trans (hoff hno hsetting)

/-- What the assertions after the discovery need. `inSync` says whether the hardware has caught
up before the review. -/
def DetectingMeets (e : Review) (inSync : Bool) (site : Site Negotiator) : Prop :=
  Detects e (inSync || e.modeSynced) site →
    (e.dpmPortClass = .unknown → site.pp.autoNegotiationEnabled = false) ∧
      (IsDevice e.dpmPortClass →
        (Granted e (requestPower e.dpmPortClass) site →
          site.rest.dtePowerConfig ≠ .on ∧ e.powerWrite ≠ .errorLost) ∧
        (Denied e (requestPower e.dpmPortClass) site → e.dpmPortClass = .cisco))

/-- The class that a discovery found decides what the review does. -/
theorem newResults_sat (hunw : Unwatched fails) (hstate : site.rest.dpmState = .detecting)
    (hmode : ModeOn site) (hauto : site.pp.dpmAdminState = .auto)
    (hpower : site.pp.dpmPdPower = 0)
    (hoff : NoErrors e → PowerSetting site₀ → site.rest.dtePowerConfig = .off)
    (hunknown : site.pp.dpmPdClass = .unknown → fails .runDpmReview ∨ Discovering site)
    (hdevice : IsDevice site.pp.dpmPdClass → (∀ fn, fails fn) ∨
      ((Granted e (requestPower site.pp.dpmPdClass) site →
        site.rest.dtePowerConfig ≠ .on ∧ e.powerWrite ≠ .errorLost) ∧
      (Denied e (requestPower site.pp.dpmPdClass) site → site.pp.dpmPdClass = .cisco))) :
    Sat (do
      match (← get).pp.dpmPdClass with
      | .null => setDenied false
      | .unknown => awaitUnknown e
      | pdClass => requestDevicePower e (requestPower pdClass)) site fails
        fun _ => Good e site₀ := by
  -- the two classes of devices take the same way
  have hrequest : IsDevice site.pp.dpmPdClass →
      Sat (requestDevicePower e (requestPower site.pp.dpmPdClass)) site fails
        fun _ => Good e site₀ := by
    intro hclass
    exact requestDevicePower_sat hunw hstate hmode hauto hclass hpower (requestPower_pos hclass)
      hoff (hdevice hclass)
  rw [sat_bind, sat_get]
  cases hclass : site.pp.dpmPdClass with
  | null =>
      simp only [setDenied, sat_setPort]
      exact good_of_detecting hstate hmode ⟨hpower, Or.inl hclass⟩ hoff
  | unknown => exact awaitUnknown_sat hmode hclass hpower (hunknown hclass) hoff
  | _ =>
      rw [hclass] at hrequest
      exact hrequest ⟨by decide, by decide⟩

/-- State Detecting. -/
theorem reviewDetecting_sat (hunw : Unwatched fails) (hstate : site.rest.dpmState = .detecting)
    (hmode : ModeOn site) (hport : DetectingPort site.pp) (hauto : site.pp.dpmAdminState = .auto)
    (hok : (∀ fn, fails fn) ∨ DetectingMeets e site.rest.phy.inSync site) :
    Sat (reviewDetecting e) site fails fun _ => Good e site := by
  obtain ⟨hpower, hclass⟩ := hport
  have hoff : NoErrors e → PowerSetting site → site.rest.dtePowerConfig = .off := by
    intro _ hsetting
    exact hsetting.off_of_state (by rw [hstate]; decide) (by rw [hstate]; decide)
  -- The port meets the three assertions of the state: class, power and configured mode.
  simp only [reviewDetecting, sat_bind, sat_get, sat_assert]
  refine ⟨?_, fun _ => ⟨fun h => absurd hpower h.2, fun _ => ⟨fun h => absurd hmode.1 h.2,
    fun _ => ?_⟩⟩⟩
  · rintro ⟨-, hne⟩
    rcases hclass with hnull | ⟨hcisco, -⟩
    · exact absurd (by rw [hnull]; decide) hne
    · exact absurd (by rw [hcisco]; decide) hne
  · refine (mode_sat e.modeSynced).mono (fun _ h => h) ?_
    rintro setting _ ⟨rfl, -, hmodeOff⟩
    rw [if_neg (hmode.ne_off hmodeOff), sat_bind]
    refine (runDiscovery_sat hunw (by exact hstate) (by exact hclass) (by exact hpower)).mono
      (fun _ h => h) ?_
    rintro newResults site₂ ⟨⟨hpp, hstate₂, hconfigured, hmode₂, hdte⟩, hnone, hresults⟩
    have hmodeOn : ModeOn site₂ := ⟨hconfigured.trans hmode.1, hmode₂.trans hmode.2⟩
    have hpower₂ : site₂.pp.dpmPdPower = 0 := by
      rw [hpp]
      exact hpower
    have hoff₂ : NoErrors e → PowerSetting site → site₂.rest.dtePowerConfig = .off :=
      fun hno hsetting => hdte.trans (hoff hno hsetting)
    -- Without new results the port stays in Detecting as it is.
    by_cases hnew : newResults = true
    · rw [if_pos hnew]
      have hmax : site₂.pp.maxDpmPdPower = site.pp.maxDpmPdPower := by
        rw [hpp]
        rfl
      refine newResults_sat hunw (hstate₂.trans hstate) hmodeOn (by rwa [hpp]) hpower₂ hoff₂ ?_ ?_
      · intro hunknown
        rcases hresults hnew with hnull | ⟨-, hdiscovering⟩ | ⟨hdetects, hport, hdiscovering⟩
        · rw [hnull] at hunknown
          cases hunknown
        · exact Or.inr hdiscovering
        · exact hok.imp (fun hall => hall _) fun hmeets =>
            hdiscovering ((hmeets hdetects).1 (hport.symm.trans hunknown))
      · -- a device was read from the hardware, and not guessed
        intro hdevice
        refine hok.imp_right fun hmeets => ?_
        rcases hresults hnew with hnull | ⟨hunknown, -⟩ | ⟨hdetects, hport, -⟩
        · exact absurd hnull hdevice.1
        · exact absurd hunknown hdevice.2
        · rw [hport] at hdevice ⊢
          obtain ⟨hgranted, hdenied⟩ := (hmeets hdetects).2 hdevice
          rw [Granted, Denied, hmax, hdte]
          exact ⟨hgranted, hdenied⟩
    · rw [if_neg hnew, sat_pure]
      have hsame := hnone (by simpa using hnew)
      exact good_of_detecting (hstate₂.trans hstate) hmodeOn ⟨hpower₂, by rw [hsame]; exact hclass⟩
        hoff₂

end Detecting

/-! ### State WaitForLinkup -/

section WaitForLinkup
variable {site site₀ : Site Negotiator} {fails : Fn → Prop} {e : Review}

/-- A released device is detected again. -/
theorem detectAgain_sat (hunw : Unwatched fails) {write : DteWrite} (hmode : ModeOn site)
    (hpower : 0 ≤ site.pp.dpmPdPower) :
    Sat (detectAgain e write) site fails fun _ => Good e site₀ := by
  simp only [detectAgain, sat_bind]
  refine (releaseDevice_sat hunw hpower).mono (fun _ h => h) ?_
  rintro _ site₁ ⟨hpp, hrest, -⟩
  have hclass : RestartClass site₁.pp := by
    rw [hpp]
    exact Or.inl rfl
  have hzero : site₁.pp.dpmPdPower = 0 := by
    rw [hpp]
    rfl
  rw [sat_writeDtePower]
  -- A write that went through has turned the power off, which the discovery needs.
  by_cases hok : write = .ok
  · rw [if_pos (by simpa using hok), sat_bind]
    refine rediscover_sat _ (by rwa [ModeOn, hrest]) (Or.inr hclass) hzero fun _ _ => ?_
    show (if write = .errorLost then _ else _) = _
    rw [hok]
    rfl
  · rw [if_neg (by simpa using hok)]
    refine (resetState_sat hunw (by exact hzero.ge)).mono (fun _ h => h) ?_
    intro _ site' hreset
    exact good_of_reset hreset

/-- The timer of state WaitForLinkup. -/
theorem checkLinkupTimer_sat (hunw : Unwatched fails) (h : Good e site₀ site) :
    Sat (checkLinkupTimer e) site fails fun _ => Good e site₀ := by
  simp only [checkLinkupTimer, sat_bind, sat_get]
  by_cases hstate : site.rest.dpmState = .waitForLinkup
  · have hmode : ModeOn site := by
      have hinv := h.inv
      rw [Inv, hstate] at hinv
      exact hinv.1
    rw [if_pos hstate]
    simp only [dpmLinkupTimerTimeOut, sat_bind, sat_get]
    -- A timer that was never started fails its assertion.
    cases site.rest.dpmWaitLinkupTimer with
    | none => exact hunw _ id
    | some start =>
        simp only [sat_pure, sat_ite, sat_bind, sat_writeDtePower]
        refine ⟨fun _ => ⟨fun hwrite => ?_, fun _ => ?_⟩, fun _ => h⟩
        · -- the controller is off, and stays off
          refine (releaseDevice_sat hunw (by exact h.inv.power_nonneg)).mono (fun _ h => h) ?_
          rintro _ site₁ ⟨hpp, hrest, hdte⟩
          have hclass : RestartClass site₁.pp := by
            rw [hpp]
            exact Or.inl rfl
          have hzero : site₁.pp.dpmPdPower = 0 := by
            rw [hpp]
            rfl
          refine rediscover_sat _ (by rwa [ModeOn, hrest]) (Or.inr hclass) hzero fun _ _ => ?_
          rw [of_decide_eq_true hwrite] at hdte
          exact hdte.elim id id
        · refine (resetState_sat hunw (by exact h.inv.power_nonneg)).mono (fun _ h => h) ?_
          intro _ site' hreset
          exact good_of_reset hreset
  · rw [if_neg hstate, sat_pure]
    exact h

/-- A powered device that waits for the link. -/
theorem checkPowered_sat (hunw : Unwatched fails) (hstate : site.rest.dpmState = .waitForLinkup)
    (hdevice : IsDevice site.pp.dpmPdClass) (hpower : site.pp.dpmPdPower > 0)
    (h : Good e site₀ site) :
    Sat (checkPowered e) site fails fun _ => Good e site₀ := by
  have hmode : ModeOn site := by
    have hinv := h.inv
    rw [Inv, hstate] at hinv
    exact hinv.1
  simp only [checkPowered, sat_bind]
  refine applyUsersConfig_sat.mono (fun _ h => h) ?_
  intro _ site₁ hsame
  have hgood₁ : Good e site₀ site₁ := h.same (Same.refl site₀) hsame
  have hmode₁ : ModeOn site₁ := by rwa [ModeOn, hsame.configured, hsame.mode]
  have hpower₁ : site₁.pp.dpmPdPower > 0 := by rwa [hsame.pp]
  rw [sat_ite]
  refine ⟨fun _ => hgood₁, fun _ => ?_⟩
  cases e.dtePowerStatus with
  | outOfControl =>
      rw [sat_bind]
      refine (outOfControl_sat hunw hpower₁.le).mono (fun _ h => h) ?_
      rintro _ site₂ (hsame₂ | hreset)
      · exact hgood₁.same (Same.refl site₀) hsame₂
      · exact good_of_reset hreset
  | off =>
      rw [sat_ite, sat_bind]
      refine ⟨fun _ => ?_, fun _ => hgood₁⟩
      exact detectAgain_sat hunw hmode₁ hpower₁.le
  | faulty => exact hgood₁
  | null => exact hgood₁
  | on =>
      rw [sat_ite]
      refine ⟨fun _ => ?_, fun _ => hgood₁⟩
      -- the device has its power, and keeps it in state Linkup
      rw [setState, sat_bind, sat_setNegotiator, sat_pure]
      have hdevice₁ : IsDevice site₁.pp.dpmPdClass := by rwa [hsame.pp]
      exact ⟨⟨hmode₁, Or.inr ⟨hdevice₁, hpower₁.le⟩⟩,
        fun _ _ => ⟨fun _ => ⟨Or.inr rfl, hdevice₁⟩, fun _ => hpower₁⟩⟩

/-- A device in state WaitForLinkup. Only a Cisco device may have been denied. -/
theorem waitForDevice_sat (hunw : Unwatched fails) (hstate : site.rest.dpmState = .waitForLinkup)
    (hmode : ModeOn site) (hport : WaitingPort site.pp) (hdevice : IsDevice site.pp.dpmPdClass)
    (hok : (∀ fn, fails fn) ∨
      (site.pp.dpmPdPowerDenied = true → site.pp.dpmPdClass = .cisco)) :
    Sat (waitForDevice e) site fails fun _ => Good e site := by
  -- a device has power or was denied it
  have hpowered : (site.pp.dpmPdPowerDenied = false ∧ site.pp.dpmPdPower > 0) ∨
      (site.pp.dpmPdPowerDenied = true ∧ site.pp.dpmPdPower = 0) := by
    rcases hport with ⟨hunknown, -⟩ | ⟨-, hpowered⟩
    · exact absurd hunknown hdevice.2
    · exact hpowered
  simp only [waitForDevice, sat_bind, sat_get, sat_assert]
  refine ⟨fun h => absurd hpowered h.2, fun _ => ?_⟩
  rcases hpowered with ⟨hgranted, hpower⟩ | ⟨hdenied, hpower⟩
  · have hgood : Good e site site := by
      refine ⟨?_, fun _ hsetting => ⟨hsetting, fun _ => hpower⟩⟩
      rw [Inv, hstate]
      exact ⟨hmode, hport⟩
    rw [if_neg (by simpa using hgranted)]
    cases site.rest.powerOnTime with
    | none => exact hgood
    | some start =>
        simp only [sat_ite]
        exact ⟨fun _ => checkPowered_sat hunw hstate hdevice hpower hgood, fun _ => hgood⟩
  · rw [if_pos hdenied]
    simp only [sat_bind, sat_writeDtePower, sat_get, sat_assert]
    refine ⟨fun h => absurd hpower h.2, fun _ => ?_⟩
    refine rediscover_sat _ hmode ?_ hpower fun hno _ => ?_
    · exact hok.imp (fun hall => hall _) fun hmeets => Or.inr ⟨hmeets hdenied, hdenied⟩
    · show (if e.powerWrite = .errorLost then _ else _) = _
      rw [hno.powerWrite]
      rfl

/-- State WaitForLinkup. -/
theorem reviewWaitForLinkup_sat (hunw : Unwatched fails)
    (hstate : site.rest.dpmState = .waitForLinkup) (hmode : ModeOn site)
    (hport : WaitingPort site.pp)
    (hok : (∀ fn, fails fn) ∨ (IsDevice site.pp.dpmPdClass →
      site.pp.dpmPdPowerDenied = true → site.pp.dpmPdClass = .cisco)) :
    Sat (reviewWaitForLinkup e) site fails fun _ => Good e site := by
  simp only [reviewWaitForLinkup, sat_bind]
  refine (mode_sat e.modeSynced).mono (fun _ h => h) ?_
  rintro setting _ ⟨rfl, -, hmodeOff⟩
  simp only [sat_assert, sat_get]
  refine ⟨?_, fun _ => ?_⟩
  · rintro ⟨-, hset⟩
    exact absurd (not_not.mp hset) (hmode.ne_off hmodeOff)
  have hsame := same_caughtUp site e.modeSynced
  -- the branch of every class of device, which ends with the linkup timer
  have hdevice : IsDevice site.pp.dpmPdClass → Sat (waitForDevice e) (caughtUp site e.modeSynced)
      fails fun goesOn site₁ =>
        Sat (if goesOn then checkLinkupTimer e else pure ()) site₁ fails fun _ => Good e site := by
    intro hdevice
    refine (waitForDevice_sat hunw (by exact hstate) (by exact hmode) (by exact hport)
      (by exact hdevice) (hok.imp_right fun hmeets => hmeets hdevice)).mono (fun _ h => h) ?_
    intro goesOn site₁ hgood
    have hgood₁ := hgood.same hsame (Same.refl site₁)
    rw [sat_ite]
    exact ⟨fun _ => checkLinkupTimer_sat hunw hgood₁, fun _ => hgood₁⟩
  rw [hsame.pp]
  cases hclass : site.pp.dpmPdClass with
  | null => exact absurd hclass (class_ne_null hport)
  | unknown =>
      have hpower := power_of_unknown hport hclass
      have hoff : PowerSetting site → site.rest.dtePowerConfig = .off :=
        fun hsetting => hsetting.off_of_unknown hclass
      simp only [sat_bind, sat_assert, sat_ite]
      refine ⟨fun h => absurd hpower h.2, fun _ => ⟨fun _ => ?_, fun _ => ?_⟩⟩
      · -- the link is up: the state becomes Linkup
        rw [setState, sat_setNegotiator]
        refine checkLinkupTimer_sat hunw ⟨?_, fun _ hsetting => powered_of_off (hoff hsetting)⟩
        exact ⟨hmode, Or.inl ⟨hclass, hpower⟩⟩
      · refine checkLinkupTimer_sat hunw ⟨?_, fun _ hsetting => powered_of_off (hoff hsetting)⟩
        rw [Inv, hsame.dpmState, hstate]
        exact ⟨hmode, Or.inl ⟨hclass, hpower⟩⟩
  | _ =>
      rw [sat_bind]
      exact hdevice (by rw [hclass]; exact ⟨by decide, by decide⟩)

end WaitForLinkup

/-! ### State Linkup -/

section Linkup
variable {site site₀ : Site Negotiator} {fails : Fn → Prop} {e : Review}

/-- The controller is turned off where the power of the port was taken away. -/
theorem shutDeniedPower_sat (hstate : site.rest.dpmState = .linkup) (h : Inv site) :
    Sat (shutDeniedPower e) site fails fun ok site' => 0 ≤ site'.pp.dpmPdPower ∧
      (ok = true → site'.rest.dpmState = .linkup ∧ Good e site site') := by
  have hpower := h.power_nonneg
  rw [Inv, hstate] at h
  simp only [shutDeniedPower, sat_bind, sat_get, sat_ite, sat_writeDtePower, sat_pure]
  refine ⟨fun _ => ⟨hpower, fun hok => ⟨hstate, ?_, fun _ _ => powered_of_off ?_⟩⟩,
    fun hnot => ⟨hpower, fun _ => ⟨hstate, ?_, fun _ hsetting => ⟨hsetting, fun hon => ?_⟩⟩⟩⟩
  · rw [Inv, hstate]
    exact h
  · show (if e.powerWrite = .errorLost then _ else _) = _
    rw [of_decide_eq_true hok]
    rfl
  · rw [Inv, hstate]
    exact h
  · exact lt_of_le_of_ne hpower fun hzero => hnot ⟨hon, hzero.symm⟩

/-- A device in state Linkup. -/
theorem monitorDevice_sat (hunw : Unwatched fails) (hstate : site.rest.dpmState = .linkup)
    (h : Inv site) :
    Sat (monitorDevice e) site fails fun _ => Good e site := by
  simp only [monitorDevice, sat_bind]
  refine (shutDeniedPower_sat hstate h).mono (fun _ h => h) ?_
  rintro ok site₁ ⟨hpower, hok⟩
  rw [sat_ite]
  refine ⟨fun _ => ?_, fun hwritten => ?_⟩
  · refine (resetState_sat hunw hpower).mono (fun _ h => h) ?_
    intro _ site' hreset
    exact good_of_reset hreset
  · obtain ⟨hstate₁, hgood₁⟩ := hok (by simpa using hwritten)
    -- the report of power out of control may reset the port
    have hcheck : Sat (checkOutOfControl e) site₁ fails fun _ => Good e site := by
      rw [checkOutOfControl, sat_ite]
      refine ⟨fun _ => ?_, fun _ => hgood₁⟩
      refine (outOfControl_sat hunw hpower).mono (fun _ h => h) ?_
      rintro _ site₂ (hsame | hreset)
      · exact hgood₁.same (Same.refl site) hsame
      · exact good_of_reset hreset
    rw [sat_bind]
    refine hcheck.mono (fun _ h => h) ?_
    intro _ site₂ hgood₂
    rw [sat_bind, sat_get, sat_ite]
    refine ⟨fun hdown => ?_, fun _ => hgood₂⟩
    -- the link went down in state Linkup
    have hinv := hgood₂.inv
    rw [Inv, hdown.1] at hinv
    exact detectAgain_sat hunw hinv.1 hgood₂.inv.power_nonneg

/-- State Linkup. -/
theorem reviewLinkup_sat (hunw : Unwatched fails) (hstate : site.rest.dpmState = .linkup)
    (h : Inv site) :
    Sat (reviewLinkup e) site fails fun _ => Good e site := by
  have hlinked := h
  rw [Inv, hstate] at hlinked
  obtain ⟨hmode, hport⟩ := hlinked
  simp only [reviewLinkup, sat_bind]
  refine (mode_sat e.modeSynced).mono (fun _ h => h) ?_
  rintro setting _ ⟨rfl, -, hmodeOff⟩
  simp only [runNonDpmReview, phyWrites, sat_assert, sat_setPhy, sat_get]
  refine ⟨?_, fun _ => ?_⟩
  · rintro ⟨-, hset⟩
    exact absurd (not_not.mp hset) (hmode.ne_off hmodeOff)
  rw [(same_caughtUp site e.modeSynced).pp]
  -- What the state does depends on the class of the device.
  cases hclass : site.pp.dpmPdClass with
  | null => exact absurd hclass (class_ne_null hport)
  | unknown =>
      have hpower := power_of_unknown hport hclass
      have hoff : PowerSetting site → site.rest.dtePowerConfig = .off :=
        fun hsetting => hsetting.off_of_unknown hclass
      simp only [setClass, restartCiscoDiscovery, sat_ite, sat_bind, sat_assert, sat_setPort]
      refine ⟨fun _ => ⟨fun h => absurd hpower h.2, fun _ => ?_⟩, fun _ => ?_⟩
      · -- the class was unknown, so that discovery starts again
        exact rediscover_sat _ hmode (Or.inr (Or.inl rfl)) hpower fun _ hsetting => hoff hsetting
      · rw [sat_pure]
        exact ⟨h.same ⟨rfl, rfl, rfl, rfl, rfl⟩, fun _ hsetting => powered_of_off (hoff hsetting)⟩
  | _ =>
      refine (monitorDevice_sat hunw (by exact hstate) (by exact h)).mono (fun _ h => h) ?_
      intro _ site' hgood
      exact hgood.same ⟨rfl, rfl, rfl, rfl, rfl⟩ (Same.refl site')

end Linkup

/-! ### The review -/

section Review
variable {site : Site Negotiator} {fails : Fn → Prop} {e : Review}

/-- What the assertions of a review need. -/
def ReviewMeets (e : Review) (site : Site Negotiator) : Prop :=
  site.pp.enabled = true → site.pp.dpmAdminState ≠ .off → site.pp.dpmAdminState = .auto ∧
    match site.rest.dpmState with
    | .detecting => DetectingMeets e (site.rest.phy.inSync && !e.otherWrites) site
    | .waitForLinkup => IsDevice site.pp.dpmPdClass →
        site.pp.dpmPdPowerDenied = true → site.pp.dpmPdClass = .cisco
    | _ => True

/-- The site after other registers of the PHY were written, or not. -/
def wrote (site : Site Negotiator) (writes : Bool) : Site Negotiator :=
  { site with rest := { site.rest with phy := { site.rest.phy with
    inSync := site.rest.phy.inSync && !writes } } }

/-- A write to the controller leaves the port as it is. -/
theorem same_wrote (site : Site Negotiator) (writes : Bool) : Same site (wrote site writes) :=
  ⟨rfl, rfl, rfl, rfl, rfl⟩

/-- A write to the controller succeeds and is recorded, or is not made at all. -/
theorem sat_phyWrites {writes : Bool} {post : Unit → Site Negotiator → Prop} :
    Sat (phyWrites writes) site fails post ↔ post () (wrote site writes) := Iff.rfl

/-- A review keeps the invariant and the power setting. Its assertions hold where it meets what
they need. -/
theorem review_sat (hunw : Unwatched fails) (h : Inv site)
    (hok : (∀ fn, fails fn) ∨ ReviewMeets e site) :
    Sat (runDpmReview e) site fails fun _ => Good e site := by
  have hsame := same_wrote site e.otherWrites
  have hinv := h.same hsame
  -- what the other writes of the review have left is the same for the goal
  have hback : ∀ {prog : Prog Unit},
      Sat prog (wrote site e.otherWrites) fails (fun _ => Good e (wrote site e.otherWrites)) →
        Sat prog (wrote site e.otherWrites) fails fun _ => Good e site := by
    intro prog hprog
    exact hprog.mono (fun _ h => h) fun _ site' hgood => hgood.same hsame (Same.refl site')
  simp only [runDpmReview, sat_bind, sat_phyWrites, sat_get, hsame.pp, hsame.dpmState]
  by_cases hactive : site.pp.enabled = true ∧ site.pp.dpmAdminState ≠ .off
  · rw [if_neg (by simpa using hactive), sat_bind, sat_assert]
    refine ⟨?_, fun hassert => ?_⟩
    · rintro ⟨-, hne⟩
      exact hok.elim (fun hall => hall _) fun hmeets => absurd (hmeets hactive.1 hactive.2).1 hne
    have hauto : site.pp.dpmAdminState = .auto := by
      by_contra hne
      exact hassert ⟨rfl, hne⟩
    -- from here on one case for each state
    have hmeets : (∀ fn, fails fn) ∨ _ := hok.imp_right fun hmeets => (hmeets hactive.1 hactive.2).2
    have hport := h
    rw [Inv] at hport
    cases hstate : site.rest.dpmState with
    | null =>
        rw [hstate] at hport
        exact hback (reviewOff_sat hunw hport (Or.inl hstate))
    | off =>
        rw [hstate] at hport
        exact hback (reviewOff_sat hunw hport (Or.inr hstate))
    | detecting =>
        rw [hstate] at hport hmeets
        exact hback (reviewDetecting_sat hunw hstate hport.1 hport.2 hauto hmeets)
    | waitForLinkup =>
        rw [hstate] at hport hmeets
        exact hback (reviewWaitForLinkup_sat hunw hstate hport.1 hport.2 hmeets)
    | linkup => exact hback (reviewLinkup_sat hunw hstate hinv)
  · rw [if_pos (by simpa [imp_iff_not_or] using hactive)]
    exact hback (reviewDisabled_sat hunw hinv)

end Review

end MyTestFiles.Proofs.InlinePower
