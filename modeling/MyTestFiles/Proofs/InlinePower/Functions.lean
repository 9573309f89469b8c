import MyTestFiles.InlinePower.Negotiator

/-!
# `MyTestFiles.Proofs.InlinePower.Functions`: what the functions of a review do

One lemma for each function that `runDpmReview` calls, in a build with assertions. The
functions outside the four of `Watched` may stop at their own assertions: `Unwatched fails`
says that the lemma does not rule this out.

* `Same` relates two states of a port that differ in nothing that power depends on. The functions
  that only read the PHY or write its configuration keep it.
* `Reclassified` is what a look at the device may change: its class, its denial, and the flags of
  its discovery.
* `TurnsOff`, `Reset` and `Answered` are what the functions that move power do. Each gives the
  port that is left as a term, so a caller needs no more than the lemma.

The lemmas are in the form of `Sat`: a function of the source, the state before it, and what is
known of the state after it. They are tight enough for `review_sat` and say nothing of what it
does not need, such as times.
-/

set_option autoImplicit false

namespace MyTestFiles.Proofs.InlinePower

open MyTestFiles.Lib
open MyTestFiles.InlinePower

/-- The functions whose assertions must hold. -/
def Watched : Fn → Prop
  | .runDpmReview | .runDiscovery | .restartDiscovery | .restartCiscoDiscovery => True
  | _ => False

/-- The other functions may fail. -/
def Unwatched (fails : Fn → Prop) : Prop := ∀ fn, ¬ Watched fn → fails fn

section Primitives
variable {site : Site Negotiator} {fails : Fn → Prop}

/-- A store to the negotiator, seen from its postcondition. -/
@[simp] theorem sat_setNegotiator {f : Negotiator → Negotiator}
    {post : Unit → Site Negotiator → Prop} :
    Sat (setNegotiator f) site fails post ↔ post () { site with rest := f site.rest } := Iff.rfl

/-- A store to the PHY, seen from its postcondition. -/
@[simp] theorem sat_setPhy {f : Phy → Phy} {post : Unit → Site Negotiator → Prop} :
    Sat (setPhy f) site fails post ↔
      post () { site with rest := { site.rest with phy := f site.rest.phy } } := Iff.rfl

/-- The old configuration is copied into the negotiator, and nothing else changes. -/
@[simp] theorem sat_recordOldConfiguration {post : Unit → Site Negotiator → Prop} :
    Sat recordOldConfiguration site fails post ↔
      post () { site with rest := { site.rest with
        oldAutoNegotiationEnable := site.pp.autoNegotiationEnabled
        oldLineSpeedSet := site.pp.permittedLineSpeed
        oldDuplex := site.pp.permittedDuplex } } := Iff.rfl

/-- The power bit goes to the PHY, and the result says whether the write has come through. -/
@[simp] theorem sat_writeDtePower {power : EthDtePower} {write : DteWrite}
    {post : Bool → Site Negotiator → Prop} :
    Sat (writeDtePower power write) site fails post ↔
      post (write = .ok) { site with rest := { site.rest with
        dtePowerConfig := if write = .errorLost then site.rest.dtePowerConfig else power } } :=
  Iff.rfl

end Primitives

/-! ### Frames -/

/-- The attributes that the state machine is about are the same. -/
structure Same (site site' : Site Negotiator) : Prop where
  pp : site'.pp = site.pp
  dpmState : site'.rest.dpmState = site.rest.dpmState
  configured : site'.rest.dpmDiscoveryModeConfigured = site.rest.dpmDiscoveryModeConfigured
  mode : site'.rest.phy.spareControlEnable = site.rest.phy.spareControlEnable
  dtePower : site'.rest.dtePowerConfig = site.rest.dtePowerConfig

/-- Two steps that both leave the port alone leave it alone together. -/
theorem Same.trans {site₁ site₂ site₃ : Site Negotiator} (h : Same site₁ site₂)
    (h' : Same site₂ site₃) : Same site₁ site₃ :=
  ⟨h'.pp.trans h.pp, h'.dpmState.trans h.dpmState, h'.configured.trans h.configured,
    h'.mode.trans h.mode, h'.dtePower.trans h.dtePower⟩

section Discovery
variable {site : Site Negotiator} {fails : Fn → Prop} {e : Review}

/-- A bit is read as on only from hardware that has caught up. -/
theorem Phy.read_eq_on {phy : Phy} {bit : Bool} (h : phy.read bit = .on) :
    phy.inSync = true ∧ bit = true := by
  cases hsync : phy.inSync <;> cases bit <;> simp_all [Phy.read]

/-- A bit that is read as off is off. -/
theorem Phy.read_eq_off {phy : Phy} {bit : Bool} (h : phy.read bit = .off) : bit = false := by
  cases hsync : phy.inSync <;> cases bit <;> simp_all [Phy.read]

/-- The site after the hardware has caught up, or not. -/
def caughtUp (site : Site Negotiator) (synced : Bool) : Site Negotiator :=
  { site with rest := { site.rest with phy := { site.rest.phy with
    inSync := site.rest.phy.inSync || synced } } }

/-- Hardware that catches up changes nothing of the port. -/
theorem same_caughtUp (site : Site Negotiator) (synced : Bool) : Same site (caughtUp site synced) :=
  ⟨rfl, rfl, rfl, rfl, rfl⟩

/-- The mode setting, read back. -/
theorem mode_sat (synced : Bool) :
    Sat (dpmDeviceDiscoveryModeEnable synced) site fails fun setting site' =>
      site' = caughtUp site synced ∧
        (setting = .on → site.rest.phy.spareControlEnable = true) ∧
        (setting = .off → site.rest.phy.spareControlEnable = false) := by
  simp only [dpmDeviceDiscoveryModeEnable, catchUp, sat_bind, sat_setPhy, sat_get, sat_pure]
  refine ⟨rfl, ?_, ?_⟩
  · intro hread
    exact (Phy.read_eq_on hread).2
  · intro hread
    exact Phy.read_eq_off hread

/-- The class of a port that restarts discovery: it has no device, or a Cisco device that was
denied power. -/
def RestartClass (pp : PimPhyport) : Prop :=
  pp.dpmPdClass = .null ∨ (pp.dpmPdClass = .cisco ∧ pp.dpmPdPowerDenied = true)

/-- Discovery restarts where its two assertions hold. -/
theorem restart_sat (fn : Fn) (hclass : fails fn ∨ RestartClass site.pp)
    (hpower : site.pp.dpmPdPower = 0) :
    Sat (restart fn e) site fails fun _ site' => Same site site' ∧ RestartClass site.pp := by
  simp only [restart, forcedDpmDeviceDiscovery, sat_bind, sat_get, sat_assert, sat_setPhy,
    sat_recordOldConfiguration, sat_setNegotiator]
  refine ⟨fun h => hclass.elim id fun hmeets => absurd hmeets h.2, fun hassert =>
    ⟨fun h => absurd hpower h.2, fun _ => ⟨⟨rfl, rfl, rfl, rfl, rfl⟩, ?_⟩⟩⟩
  by_contra hne
  exact hassert ⟨trivial, hne⟩

/-- The user's configuration is written to the PHY and recorded. The port stays. -/
theorem applyUsersConfig_sat :
    Sat (applyUsersConfig e) site fails fun _ site' => Same site site' := by
  simp only [applyUsersConfig, runNonDpmReview, phyWrites, sat_bind, sat_recordOldConfiguration,
    sat_setPhy]
  exact ⟨rfl, rfl, rfl, rfl, rfl⟩

/-- Discovery is on, and the hardware says so. -/
def Discovering (site : Site Negotiator) : Prop :=
  site.rest.phy.inSync = true ∧ site.rest.phy.dpmDetectionEnable = true

/-- The discovery setting, read back. -/
theorem discovery_sat (synced : Bool) :
    Sat (dpmDeviceDiscovery synced) site fails fun setting site' =>
      site' = caughtUp site synced ∧ (setting = .on ↔ Discovering site') := by
  simp only [dpmDeviceDiscovery, catchUp, sat_bind, sat_setPhy, sat_get, sat_pure]
  refine ⟨rfl, ?_⟩
  simp only [Discovering, Phy.read]
  cases site.rest.phy.inSync <;> cases synced <;> cases site.rest.phy.dpmDetectionEnable <;> simp

/-- The hardware is in sync when the device status is read. -/
def statusInSync (e : Review) (inSync : Bool) : Bool :=
  (inSync && !e.autoNegWrites) || e.statusSynced

/-- The device status, read while discovery is on. -/
theorem status_sat (hunw : Unwatched fails) :
    Sat (dpmDeviceStatus e) site fails fun status site' => Same site site' ∧
      site'.rest.phy.dpmDetectionEnable = site.rest.phy.dpmDetectionEnable ∧
      (status ≠ .null → site'.rest.phy.inSync = true) ∧
      (status = .dpmDevicePresent → statusInSync e site.rest.phy.inSync = true ∧
        e.dpmStat = true ∧ e.mismtch = false) := by
  simp only [dpmDeviceStatus, phyWrites, catchUp, sat_bind, sat_setPhy, sat_get, sat_ite,
    sat_assert, sat_pure]
  refine ⟨?_, ?_⟩
  · intro hsync
    refine ⟨fun _ => hunw _ id, fun _ => ⟨fun _ => hunw _ id, fun hflags => ?_⟩⟩
    refine ⟨⟨rfl, rfl, rfl, rfl, rfl⟩, trivial, fun _ => hsync, ?_⟩
    intro hstatus
    refine ⟨hsync, ?_⟩
    cases hstat : e.dpmStat <;> cases hmis : e.mismtch <;> simp_all
  · intro _
    exact ⟨⟨rfl, rfl, rfl, rfl, rfl⟩, trivial, fun hne => absurd rfl hne, fun heq => by simp at heq⟩

/-- A reclassified port. -/
structure Reclassified (site site' : Site Negotiator) : Prop where
  pp : site'.pp = { site.pp with dpmPdClass := site'.pp.dpmPdClass }
  dpmState : site'.rest.dpmState = site.rest.dpmState
  configured : site'.rest.dpmDiscoveryModeConfigured = site.rest.dpmDiscoveryModeConfigured
  mode : site'.rest.phy.spareControlEnable = site.rest.phy.spareControlEnable
  dtePower : site'.rest.dtePowerConfig = site.rest.dtePowerConfig

/-- Two looks at the device are one. -/
theorem Reclassified.trans {site₁ site₂ site₃ : Site Negotiator} (h : Reclassified site₁ site₂)
    (h' : Reclassified site₂ site₃) : Reclassified site₁ site₃ :=
  ⟨by rw [h'.pp, h.pp], h'.dpmState.trans h.dpmState, h'.configured.trans h.configured,
    h'.mode.trans h.mode, h'.dtePower.trans h.dtePower⟩

/-- Where nothing changes nothing is reclassified. -/
theorem Same.reclassified {site' : Site Negotiator} (h : Same site site') :
    Reclassified site site' :=
  ⟨by rw [h.pp], h.dpmState, h.configured, h.mode, h.dtePower⟩

/-- What the discovery does with a device status: the port is reclassified. A device that may
ask for power turns discovery off where the port negotiates. -/
structure Classified (e : Review) (status : EthDpmDeviceStatus) (site : Site Negotiator)
    (newResults : Bool) (site' : Site Negotiator) : Prop where
  frame : Reclassified site site'
  noResults : newResults = false → site'.pp = site.pp
  results : newResults = true → site'.pp.dpmPdClass = .null ∨
    (site'.pp.dpmPdClass = .unknown ∧ Discovering site') ∨
    (status = .dpmDevicePresent ∧ site'.pp.dpmPdClass = e.dpmPortClass ∧
      (site.pp.autoNegotiationEnabled = false → Discovering site'))

/-- The branch on the detected status gives the port the class that the status stands for. -/
theorem classify_sat {status : EthDpmDeviceStatus} (hsync : status ≠ .null → Discovering site) :
    Sat (classify e status) site fails (Classified e status site) := by
  cases status with
  | null =>
      simp only [classify, sat_pure]
      exact ⟨⟨rfl, rfl, rfl, rfl, rfl⟩, fun _ => rfl, by rintro ⟨⟩⟩
  | dpmDevicePresent =>
      simp only [classify, setClass, forcedDpmDeviceDiscovery, sat_bind, sat_get, sat_ite,
        sat_setPhy, sat_setPort, sat_pure]
      -- With auto-negotiation the discovery ends here, and otherwise it goes on.
      refine ⟨fun hauto => ?_, fun _ => ?_⟩
      · refine ⟨⟨rfl, rfl, rfl, rfl, rfl⟩, by rintro ⟨⟩, fun _ => Or.inr (Or.inr ⟨rfl, rfl, ?_⟩)⟩
        intro hno
        rw [hauto] at hno
        cases hno
      · refine ⟨⟨rfl, rfl, rfl, rfl, rfl⟩, by rintro ⟨⟩, fun _ => Or.inr (Or.inr ⟨rfl, rfl, ?_⟩)⟩
        exact fun _ => hsync (by decide)
  | nonDpmDevicePresent =>
      simp only [classify, setClass, sat_bind, sat_setPort, sat_pure]
      exact ⟨⟨rfl, rfl, rfl, rfl, rfl⟩, by rintro ⟨⟩,
        fun _ => Or.inr (Or.inl ⟨rfl, hsync (by decide)⟩)⟩
  | nothingDetected =>
      simp only [classify, setClass, sat_bind, sat_setPort, sat_pure]
      exact ⟨⟨rfl, rfl, rfl, rfl, rfl⟩, by rintro ⟨⟩, fun _ => Or.inl rfl⟩

/-- The timer that delays the next look at a denied device has expired. -/
def DelayExpired (e : Review) (site : Site Negotiator) : Prop :=
  ∃ start, site.rest.dpmDelayCheckTimer = some start ∧
    e.microTime .delayCheck - start > DelayCheckTimeWhenPowerDenied

/-- Whether the review looks at the device again. A port that was denied power is looked at only
after the delay. -/
theorem mayLook_sat (hunw : Unwatched fails) :
    Sat (mayLook e) site fails fun look site' => site' = site ∧
      (look = true → site.pp.dpmPdPowerDenied = true → DelayExpired e site) := by
  simp only [mayLook, dpmDelayCheckTimerTimeOut, sat_bind, sat_get]
  by_cases hdenied : site.pp.dpmPdPowerDenied = true
  · rw [if_pos hdenied, sat_bind, sat_get]
    cases htimer : site.rest.dpmDelayCheckTimer with
    | none => exact hunw _ id
    | some start =>
        rw [sat_pure]
        exact ⟨rfl, fun hlook _ => ⟨start, htimer, of_decide_eq_true hlook⟩⟩
  · rw [if_neg hdenied, sat_pure]
    exact ⟨rfl, fun _ h => absurd h hdenied⟩

/-- The review finds a device that may ask for power. `inSync` says whether the hardware has
caught up before. -/
def Detects (e : Review) (inSync : Bool) (site : Site Negotiator) : Prop :=
  configChangedSinceLastApplied site = false ∧
    site.rest.phy.dpmDetectionEnable = true ∧ (inSync || e.discoverySynced) = true ∧
    (site.pp.dpmPdPowerDenied = true → DelayExpired e site) ∧
    statusInSync e (inSync || e.discoverySynced) = true ∧ e.dpmStat = true ∧ e.mismtch = false

/-- What the discovery does: it reclassifies the port, with no device, an unknown device or a
device that may ask for power. -/
structure Discovered (e : Review) (site : Site Negotiator) (newResults : Bool)
    (site' : Site Negotiator) : Prop where
  frame : Reclassified site site'
  noResults : newResults = false → site'.pp = site.pp
  results : newResults = true → site'.pp.dpmPdClass = .null ∨
    (site'.pp.dpmPdClass = .unknown ∧ Discovering site') ∨
    (Detects e site.rest.phy.inSync site ∧ site'.pp.dpmPdClass = e.dpmPortClass ∧
      (site.pp.autoNegotiationEnabled = false → Discovering site'))

/-- No new results. -/
theorem discovered_of_same {site' : Site Negotiator} (h : Same site site') :
    Discovered e site false site' :=
  ⟨h.reclassified, fun _ => h.pp, by rintro ⟨⟩⟩

/-- A pass of the discovery, on a port without power whose class is one that a discovery starts
with. -/
theorem runDiscovery_sat (hunw : Unwatched fails) (hstate : site.rest.dpmState = .detecting)
    (hclass : RestartClass site.pp) (hpower : site.pp.dpmPdPower = 0) :
    Sat (runDiscovery e) site fails (Discovered e site) := by
  simp only [runDiscovery, sat_bind, sat_get, sat_assert]
  refine ⟨fun h => absurd hstate h.2, fun _ => ?_⟩
  -- A change of the configuration starts the discovery again, without a result.
  by_cases hconfig : configChangedSinceLastApplied site = true
  · rw [if_pos hconfig, sat_bind]
    refine (restart_sat .restartDiscovery (Or.inr hclass) hpower).mono (fun _ h => h) ?_
    rintro _ site' ⟨hsame, -⟩
    exact discovered_of_same hsame
  · rw [if_neg hconfig, sat_bind]
    refine (discovery_sat e.discoverySynced).mono (fun _ h => h) ?_
    rintro setting _ ⟨rfl, hon⟩
    by_cases hset : setting = .on
    · -- the readings of the setting and of the status, with the delay between them
      rw [if_pos hset]
      obtain ⟨hsync, hdetection⟩ := hon.mp hset
      rw [sat_bind]
      refine (mayLook_sat hunw).mono (fun _ h => h) ?_
      rintro look _ ⟨rfl, hdelay⟩
      by_cases hlook : look = true
      · rw [if_pos hlook, sat_bind]
        refine (status_sat hunw).mono (fun _ h => h) ?_
        rintro status site₁ ⟨hsame, hkept, hstatus, hpresent⟩
        have hsame₁ := (same_caughtUp site e.discoverySynced).trans hsame
        refine (classify_sat fun hne => ⟨hstatus hne, hkept.trans hdetection⟩).mono
          (fun _ h => h) ?_
        rintro newResults site₂ ⟨hframe, hnone, hresults⟩
        refine ⟨hsame₁.reclassified.trans hframe, fun h => (hnone h).trans hsame₁.pp, ?_⟩
        intro h
        rcases hresults h with hnull | hunknown | ⟨rfl, hclass, hdiscovering⟩
        · exact Or.inl hnull
        · exact Or.inr (Or.inl hunknown)
        · obtain ⟨hsync₁, hstat, hmis⟩ := hpresent rfl
          refine Or.inr (Or.inr ⟨?_, hclass, ?_⟩)
          · exact ⟨by simpa using hconfig, hdetection, hsync, hdelay hlook, hsync₁, hstat, hmis⟩
          · rw [hsame₁.pp] at hdiscovering
            exact hdiscovering
      · rw [if_neg hlook, sat_pure]
        exact discovered_of_same (same_caughtUp site _)
    · rw [if_neg hset, sat_pure]
      exact discovered_of_same (same_caughtUp site _)

end Discovery

/-! ### Power -/

section Power
variable {site : Site Negotiator} {fails : Fn → Prop} {e : Review} {w : MilliWatts}

/-- The port after an assignment, next to a controller that was turned off or not. -/
structure TurnsOff (pp : PimPhyport) (site site' : Site Negotiator) : Prop where
  pp : site'.pp = pp
  rest : site'.rest = { site.rest with dtePowerConfig := site'.rest.dtePowerConfig }
  dtePower : site'.rest.dtePowerConfig = site.rest.dtePowerConfig ∨
    site'.rest.dtePowerConfig = .off

/-- A port on which nothing is left to turn off. -/
theorem turnsOff_refl (pp : PimPhyport) : TurnsOff pp site { site with pp := pp } :=
  ⟨rfl, rfl, Or.inl rfl⟩

/-- `deleteDpmPdPower` asks for a positive amount, and turns the port off where all of its power
goes. -/
theorem reviewDelete_sat (hunw : Unwatched fails) :
    Sat (deleteDpmPdPower .debug (reviewManager e) w) site fails fun _ site' => w > 0 ∧
      TurnsOff { site.pp with dpmPdPower := site.pp.dpmPdPower - w } site site' := by
  -- the module gets the power back without a change to the port
  have hreturn : ∀ site₁ : Site Negotiator, Sat (returnPower .debug (reviewManager e) w) site₁ fails
      fun _ site' => site' = site₁ := by
    intro site₁
    simp only [returnPower, sat_bind, sat_get]
    cases hadmin : site₁.pp.dpmAdminState with
    | auto => exact rfl
    | static => exact rfl
    | off =>
        rw [sat_assert]
        exact ⟨fun _ => hunw _ id, fun _ => rfl⟩
  -- the notification may have turned the power off
  have hturn : ∀ site₁ : Site Negotiator, Sat (turnOffPower .debug (reviewManager e) w) site₁ fails
      fun _ site' => TurnsOff site₁.pp site₁ site' := by
    intro site₁
    simp only [turnOffPower, sat_bind, sat_get, sat_ite, sat_around, sat_assert]
    refine ⟨fun _ => ?_, fun _ => turnsOff_refl _⟩
    refine ⟨fun _ => hunw _ id, fun _ => ⟨rfl, rfl, ?_⟩⟩
    show (if e.notifyTurnsOff then _ else _) = _ ∨ (if e.notifyTurnsOff then _ else _) = _
    cases e.notifyTurnsOff
    · exact Or.inl rfl
    · exact Or.inr rfl
  simp only [deleteDpmPdPower, addPower, sat_bind, sat_assert, sat_get, sat_setPort]
  refine ⟨fun _ => hunw _ id, fun _ => ⟨fun _ => hunw _ id, fun hassert => ?_⟩⟩
  -- the first assertion
  have hw : w > 0 := by
    by_contra hne
    exact hassert ⟨trivial, hne⟩
  refine (hturn _).mono (fun _ h => h) ?_
  rintro _ site₁ ⟨hpp, hrest, hdte⟩
  refine (hreturn site₁).mono (fun _ h => h) ?_
  rintro _ _ rfl
  rw [sat_pure]
  exact ⟨hw, by rw [hpp, ← sub_eq_add_neg], hrest, hdte⟩

/-- All power of the port is given back, and the port is turned off. -/
theorem deleteAllPower_sat (hunw : Unwatched fails) (hpower : 0 ≤ site.pp.dpmPdPower) :
    Sat (deleteAllPower .debug (reviewManager e)) site fails fun _ site' =>
      TurnsOff { site.pp with dpmPdPower := 0 } site site' := by
  simp only [deleteAllPower, sat_bind, sat_get]
  by_cases hpos : site.pp.dpmPdPower > 0
  · rw [if_pos hpos]
    simp only [sat_bind, sat_get, sat_pure]
    refine (reviewDelete_sat hunw).mono (fun _ h => h) ?_
    rintro _ site' ⟨-, hdelete⟩
    rwa [sub_self] at hdelete
  · rw [if_neg hpos, sat_pure, ← le_antisymm (not_lt.mp hpos) hpower]
    exact turnsOff_refl _

/-- The port after it has given up its class and its power. -/
def released (pp : PimPhyport) : PimPhyport :=
  { pp with dpmPdClass := .null, dpmPdPower := 0, dpmPdPowerDenied := false }

/-- The lines that release a device; their assertion holds. -/
theorem releaseDevice_sat (hunw : Unwatched fails) (hpower : 0 ≤ site.pp.dpmPdPower) :
    Sat (releaseDevice e) site fails fun _ site' => TurnsOff (released site.pp) site site' := by
  simp only [releaseDevice, setClass, setDenied, sat_bind, sat_setPort]
  refine (deleteAllPower_sat hunw (by exact hpower)).mono (fun _ h => h) ?_
  rintro _ site₁ ⟨hpp, hrest, hdte⟩
  simp only [sat_get, sat_assert]
  refine ⟨fun h => absurd (by rw [hpp]) h.2, fun _ => ⟨by rw [hpp]; rfl, hrest, hdte⟩⟩

/-- A port without power, in state Off. A write without an error has turned the controller
off. -/
structure Reset (write : DteWrite) (site site' : Site Negotiator) : Prop where
  pp : site'.pp = released site.pp
  dpmState : site'.rest.dpmState = .off
  dtePower : write = .ok → site'.rest.dtePowerConfig = .off

/-- `dpmResetState` gives all power back and starts the discovery from the beginning. -/
theorem resetState_sat (hunw : Unwatched fails) (hpower : 0 ≤ site.pp.dpmPdPower) :
    Sat (dpmResetState e) site fails fun _ site' => Reset e.resetWrite site site' := by
  simp only [dpmResetState, resetPort, setClass, setDenied, sat_bind, sat_writeDtePower,
    sat_setPort]
  refine (deleteAllPower_sat hunw (by exact hpower)).mono (fun _ h => h) ?_
  rintro _ site₁ ⟨hpp, -, hdte⟩
  simp only [dpmDeviceDiscoveryMode, forcedDpmDeviceDiscovery, forcedDpmDeviceDiscoveryModeEnable,
    sat_bind, sat_ite, sat_setPhy, sat_setNegotiator]
  refine ⟨by rintro ⟨⟩, fun _ => ⟨by rw [hpp]; rfl, rfl, ?_⟩⟩
  intro hok
  rcases hdte with hsame | hoff
  · rw [hok] at hsame
    exact hsame
  · exact hoff

/-- A device out of control: nothing that matters changes, or the state is reset. -/
theorem outOfControl_sat (hunw : Unwatched fails) (hpower : 0 ≤ site.pp.dpmPdPower) :
    Sat (dtePowerOutOfControl e) site fails fun _ site' =>
      Same site site' ∨ Reset e.resetWrite site site' := by
  simp only [dtePowerOutOfControl, sat_bind, sat_setNegotiator, sat_get, sat_ite]
  refine ⟨fun _ => Or.inl ⟨rfl, rfl, rfl, rfl, rfl⟩, fun _ => ⟨?_, ?_⟩⟩
  · intro _
    cases htime : site.rest.timeFirstDtePowerOutOfControl with
    | none => exact hunw _ id
    | some first =>
        simp only [sat_bind, sat_ite, sat_setNegotiator]
        refine ⟨fun _ => ?_, fun _ => Or.inl ⟨rfl, rfl, rfl, rfl, rfl⟩⟩
        refine (resetState_sat hunw (by exact hpower)).mono (fun _ h => h) ?_
        rintro _ site' ⟨hpp, hstate, hdte⟩
        exact Or.inr ⟨hpp, hstate, hdte⟩
  · intro _
    rw [sat_pure]
    exact Or.inl ⟨rfl, rfl, rfl, rfl, rfl⟩

/-- The request of a port without power is granted. -/
def Granted (e : Review) (w : MilliWatts) (site : Site Negotiator) : Prop :=
  w ≤ site.pp.maxDpmPdPower ∧ e.moduleAnswer = w

/-- The request of a port without power is denied, by the limit of the port or by the module. -/
def Denied (e : Review) (w : MilliWatts) (site : Site Negotiator) : Prop :=
  w > site.pp.maxDpmPdPower ∨ e.moduleAnswer = 0

/-- The answer to a request of a port without power: all of it, or nothing and the port is
marked. -/
structure Answered (e : Review) (w : MilliWatts) (site : Site Negotiator) (power : MilliWatts)
    (site' : Site Negotiator) : Prop where
  rest : site'.rest = site.rest
  answer : (Granted e w site ∧ power = w ∧
      site'.pp = { site.pp with dpmPdPower := w, dpmPdPowerDenied := false }) ∨
    (Denied e w site ∧ power = 0 ∧ site'.pp = { site.pp with dpmPdPowerDenied := true })

/-- `newDpmPdPower` in state Auto, on a port without power. It is granted or denied, and the port
says which. -/
theorem reviewNew_sat (hunw : Unwatched fails) (hauto : site.pp.dpmAdminState = .auto)
    (hpower : site.pp.dpmPdPower = 0) :
    Sat (newDpmPdPower .debug (reviewManager e) w) site fails (Answered e w site) := by
  simp only [newDpmPdPower, sat_bind, sat_assert, sat_get, hauto]
  refine ⟨fun _ => hunw _ id, fun _ => ⟨fun _ => hunw _ id, fun _ => ?_⟩⟩
  -- both ways to a denial end in `denyPower` on a port without power
  have hdeny : ∀ site₁ : Site Negotiator, site₁.pp = site.pp → site₁.rest = site.rest →
      Denied e w site → Sat (denyPower .debug (reviewManager e)) site₁ fails fun _ site' =>
        Answered e w site site'.pp.dpmPdPower site' := by
    intro site₁ hpp hrest hdenied
    have hzero : ¬ site₁.pp.dpmPdPower > 0 := by
      rw [hpp, hpower]
      exact lt_irrefl 0
    simp only [denyPower, setDenied, sat_bind, sat_setPort, sat_get, if_neg hzero, sat_pure]
    exact ⟨hrest, Or.inr ⟨hdenied, by rw [hpp, hpower], by rw [hpp]⟩⟩
  simp only [newAutoPower, addPower, setDenied, sat_bind, sat_get, sat_ite, sat_around,
    sat_setPort, sat_assert, sat_pure, hpower]
  refine ⟨?_, ?_⟩
  · intro hmax
    refine hdeny site rfl rfl (Or.inl ?_)
    linarith
  · intro hmax
    show Sat (pure e.moduleAnswer) _ _ _
    rw [sat_pure]
    refine ⟨?_, ?_⟩
    · intro hanswer
      refine ⟨rfl, Or.inl ⟨⟨by linarith, hanswer⟩, ?_, ?_⟩⟩
      · show 0 + e.moduleAnswer = w
        rw [hanswer, zero_add]
      · show { site.pp with dpmPdPower := 0 + e.moduleAnswer, dpmPdPowerDenied := false } = _
        rw [hanswer, zero_add]
    · intro hanswer
      refine ⟨fun _ => hunw _ id, fun hassert => ?_⟩
      -- the assertion leaves no other answer
      have hzero : e.moduleAnswer = 0 := by
        by_contra hne
        exact hassert ⟨trivial, hne⟩
      refine hdeny _ ?_ rfl (Or.inr hzero)
      show { site.pp with dpmPdPower := 0 + e.moduleAnswer } = site.pp
      rw [hzero, zero_add, ← hpower]

end Power

end MyTestFiles.Proofs.InlinePower
