import MyTestFiles.Proofs.InlinePower.Conservation

/-!
# `MyTestFiles.Proofs.InlinePower.Reduction`: a smaller total denies power to ports

`totalInlinePowerAvailable` takes the power of one port after the other until the usage
fits. `Cut` says which ports lose their power: the shortest prefix of the powered ports
that makes the usage fit, in the order of the loop. `denyPorts_cut` is the induction over
the ports that the loop has still to visit. It carries the account of the pool
(`Accounted`), which the assertions of `deleteInlinePower` need as well.

The loop stops as soon as the usage fits, so the port at which it stops is the last that is
denied. `Cut` states that without the loop: the denied ports are a prefix of the powered ports in
the order of the loop, their power is enough or there are no others, and without the last of them
it is not.

`power_reduced` has both ends of a call. It is `Reduced` where the call completes, and otherwise
an assertion has failed that the environment is responsible for (`Stops`): the notification of a
module, the master chassis, or the last assertion of the function for a total that is negative.
-/

set_option autoImplicit false

namespace MyTestFiles.Proofs.InlinePower

open MyTestFiles.Lib
open MyTestFiles.InlinePower

/-- The assertions that can stop a reduction, in a build with assertions: the notification
of a module reports an error, or the master chassis is missing where a water mark asks
for it. -/
def Disturbed (build : Build) (call : Call) (fn : Fn) : Prop :=
  build = .debug ∧ (fn = .deleteDpmPdPower ∧ call.notifyOk = false ∨
    fn = .switchDeleteInlinePower ∧ call.master = false)

/-! ### One port -/

section Port
variable {build : Build} {call : Call} {m : Nat}

/-- `deleteInlinePower` of a switch whose usage covers the amount. -/
theorem switchDelete_covered {switch : PimSwitch} {w : MilliWatts} (hw : 0 < w)
    (hcovered : w ≤ switch.currentInlinePowerUsage) :
    Sat (PimSwitch.deleteInlinePower build call w) switch (Disturbed build call)
      fun _ switch' =>
        switch'.currentInlinePowerUsage = switch.currentInlinePowerUsage - w ∧
        switch'.totalInlinePowerAvailable = switch.totalInlinePowerAvailable := by
  simp only [PimSwitch.deleteInlinePower, sat_bind, sat_assert, sat_get, sat_modify, sat_ite,
    setExtraNumPowerPorts, sat_pure]
  refine ⟨fun h => absurd hw h.2, fun _ => ⟨fun h => absurd hcovered h.2, fun _ => ⟨?_, ?_⟩⟩⟩
  · intro _
    refine ⟨fun _ => ⟨trivial, trivial⟩, fun hmaster => ⟨?_, fun _ => ⟨trivial, trivial⟩⟩⟩
    intro hfail
    exact ⟨hfail.1, Or.inr ⟨rfl, by simpa using hmaster⟩⟩
  · intro _
    exact ⟨trivial, trivial⟩

/-- Turning off the power at the port changes nothing, with the assertion on the outside that may
fail. -/
theorem turnOffPower_disturbed {site : Site PimSwitch} (w : MilliWatts) :
    Sat (turnOffPower build (powerManager build call m) w) site (Disturbed build call)
      fun _ site' => site' = site := by
  simp only [turnOffPower, sat_bind, sat_get, sat_ite, sat_around, sat_assert, sat_pure]
  refine ⟨?_, fun _ => trivial⟩
  intro _
  show _ ∧ _
  refine ⟨fun hfail => ?_, fun _ => rfl⟩
  exact ⟨hfail.1, Or.inl ⟨rfl, by simpa [powerManager] using hfail.2⟩⟩

/-- A port in state Auto gives all its power back. -/
theorem deleteAll_covered {site : Site PimSwitch} (hauto : site.pp.dpmAdminState = .auto)
    (hpower : 0 < site.pp.dpmPdPower)
    (hcovered : site.pp.dpmPdPower ≤ site.rest.currentInlinePowerUsage) :
    Sat (deleteDpmPdPower build (powerManager build call m) site.pp.dpmPdPower) site
      (Disturbed build call) fun _ site' =>
        site'.pp = { site.pp with dpmPdPower := 0 } ∧
        site'.rest.currentInlinePowerUsage =
          site.rest.currentInlinePowerUsage - site.pp.dpmPdPower ∧
        site'.rest.totalInlinePowerAvailable = site.rest.totalInlinePowerAvailable := by
  simp only [deleteDpmPdPower, addPower, sat_bind, sat_assert, sat_get, sat_setPort, sat_pure]
  refine ⟨fun h => absurd (le_refl _) h.2, fun _ => ⟨fun h => absurd hpower h.2, fun _ => ?_⟩⟩
  refine (turnOffPower_disturbed _).mono (fun _ h => h) ?_
  rintro _ _ rfl
  simp only [returnPower, sat_bind, sat_get, hauto, sat_around]
  refine (switchDelete_covered hpower hcovered).mono (fun _ h => h) ?_
  intro _ switch' hswitch
  exact ⟨by rw [add_neg_cancel], hswitch⟩

end Port

/-! ### The loop -/

section Pool
variable {n : Nat} {build : Build} {call : Call} {pool : PowerPool n}

/-- The switch accounts for the power of its ports, which are all in state Auto. A port that
holds power is not marked as denied. -/
structure Accounted (pool : PowerPool n) : Prop where
  usage : pool.switch.currentInlinePowerUsage = ∑ i, (pool.ports i).dpmPdPower
  auto : ∀ i, (pool.ports i).dpmAdminState = .auto
  nonneg : ∀ i, 0 ≤ (pool.ports i).dpmPdPower
  notDenied : ∀ i, 0 < (pool.ports i).dpmPdPower → (pool.ports i).dpmPdPowerDenied = false

/-- The ports that hold power, in the order of a list. -/
def powered (pool : PowerPool n) (order : List (Fin n)) : List (Fin n) :=
  order.filter fun i => 0 < (pool.ports i).dpmPdPower

/-- The power that the ports of a list hold. -/
def heldBy (pool : PowerPool n) (ports : List (Fin n)) : MilliWatts :=
  (ports.map fun i => (pool.ports i).dpmPdPower).sum

/-- The port after it has lost its power. -/
def deniedPort (pp : PimPhyport) : PimPhyport :=
  { pp with dpmPdPower := 0, dpmPdPowerDenied := true }

/-- From `pool` to `pool'` the ports of `shed` have lost their power: the shortest prefix of
the powered ports of `order` without which the usage fits the total, or all of them. -/
structure Cut (order shed : List (Fin n)) (pool pool' : PowerPool n) : Prop where
  isPrefix : shed <+: powered pool order
  shortest : ∀ shorter, shorter <+: shed → shorter ≠ shed →
    pool.switch.totalInlinePowerAvailable <
      pool.switch.currentInlinePowerUsage - heldBy pool shorter
  fits : pool.switch.currentInlinePowerUsage - heldBy pool shed ≤
    pool.switch.totalInlinePowerAvailable ∨ shed = powered pool order
  shut : ∀ i ∈ shed, pool'.ports i = deniedPort (pool.ports i)
  kept : ∀ i, i ∉ shed → pool'.ports i = pool.ports i
  total : pool'.switch.totalInlinePowerAvailable = pool.switch.totalInlinePowerAvailable
  usage : pool'.switch.currentInlinePowerUsage =
    pool.switch.currentInlinePowerUsage - heldBy pool shed

/-- Nothing is cut where the usage fits. -/
theorem cut_nil (order : List (Fin n)) (h : pool.switch.currentInlinePowerUsage ≤
    pool.switch.totalInlinePowerAvailable) : Cut order [] pool pool where
  isPrefix := List.nil_prefix
  shortest := fun shorter hprefix hne => absurd (List.prefix_nil.mp hprefix) hne
  fits := Or.inl (by simpa [heldBy] using h)
  shut := by simp
  kept := fun _ _ => rfl
  total := rfl
  usage := by simp [heldBy]

/-- The pool after port `i` has lost its power. -/
structure Denied₁ (i : Fin n) (pool pool' : PowerPool n) : Prop where
  ports : pool'.ports = Function.update pool.ports i (deniedPort (pool.ports i))
  total : pool'.switch.totalInlinePowerAvailable = pool.switch.totalInlinePowerAvailable
  usage : pool'.switch.currentInlinePowerUsage =
    pool.switch.currentInlinePowerUsage - (pool.ports i).dpmPdPower

/-- The account is kept when a port loses its power. -/
theorem Denied₁.accounted {i : Fin n} {pool' : PowerPool n} (hdenied : Denied₁ i pool pool')
    (h : Accounted pool) : Accounted pool' := by
  have hports : ∀ j, pool'.ports j = if j = i then deniedPort (pool.ports i) else pool.ports j := by
    intro j
    rw [hdenied.ports, Function.update_apply]
  -- The sum falls by what the port had, as the usage does.
  have hsum : ∑ j, (pool'.ports j).dpmPdPower =
      ∑ j, (pool.ports j).dpmPdPower - (pool.ports i).dpmPdPower := by
    have hchange := sum_eq_add_sub (f := fun j => (pool.ports j).dpmPdPower)
      (g := fun j => (pool'.ports j).dpmPdPower) i (fun j hj => by simp only [hports, if_neg hj])
    have hi : (pool'.ports i).dpmPdPower = 0 := by
      rw [hports, if_pos rfl]
      rfl
    rw [hchange]
    simp only [hi]
    ring
  refine ⟨?_, ?_, ?_, ?_⟩
  · rw [hdenied.usage, hsum, h.usage]
  · intro j
    rw [hports]
    split
    · exact h.auto i
    · exact h.auto j
  · intro j
    rw [hports]
    split
    · exact le_refl 0
    · exact h.nonneg j
  · intro j hj
    rw [hports] at hj ⊢
    split at hj
    · exact absurd hj (lt_irrefl 0)
    · rename_i hji
      rw [if_neg hji]
      exact h.notDenied j hj

/-- One round of the loop, at a port that holds power while the usage does not fit. -/
theorem denyPort_denied (h : Accounted pool) {i : Fin n} (hpower : 0 < (pool.ports i).dpmPdPower)
    (hover : pool.switch.totalInlinePowerAvailable < pool.switch.currentInlinePowerUsage) :
    Sat (denyPort build call i) pool (Disturbed build call) fun _ pool' =>
      Denied₁ i pool pool' := by
  have hcovered : (pool.ports i).dpmPdPower ≤ pool.switch.currentInlinePowerUsage := by
    rw [h.usage]
    exact Finset.single_le_sum (f := fun j => (pool.ports j).dpmPdPower)
      (fun j _ => h.nonneg j) (Finset.mem_univ i)
  simp only [denyPort, sat_bind, sat_get, sat_ite, sat_assert, sat_pure]
  refine ⟨fun _ => ⟨fun _ => ⟨fun hfail => ?_, fun _ => ?_⟩, fun hnone => absurd hpower hnone⟩,
    fun hfits => absurd hover hfits⟩
  · exact absurd (h.notDenied i hpower) hfail.2
  · simp only [onPort, sat_onPart]
    refine (deleteAll_covered (h.auto i) hpower hcovered).mono (fun _ h => h) ?_
    rintro _ site ⟨hpp, husage, htotal⟩
    simp only [setDenied, sat_setPort, Function.update_self, Function.update_idem]
    refine ⟨?_, htotal, husage⟩
    rw [hpp]
    rfl

/-- One round of the loop, where nothing is to be done. -/
theorem denyPort_same {i : Fin n}
    (hnone : pool.switch.currentInlinePowerUsage ≤ pool.switch.totalInlinePowerAvailable ∨
      ¬ 0 < (pool.ports i).dpmPdPower) :
    Sat (denyPort build call i) pool (Disturbed build call) fun _ pool' => pool' = pool := by
  simp only [denyPort, sat_bind, sat_get, sat_ite, sat_assert, sat_pure]
  refine ⟨fun hover => ⟨fun hpower => ?_, fun _ => trivial⟩, fun _ => trivial⟩
  rcases hnone with hfits | hzero
  · exact absurd hfits (not_le.mpr hover)
  · exact absurd hpower hzero

section Cut
variable {order shed : List (Fin n)} {mid pool' : PowerPool n} {i : Fin n}

/-- The other ports keep what they have. -/
theorem Denied₁.ports_of_mem (hdenied : Denied₁ i pool mid) {ports : List (Fin n)}
    (hi : i ∉ ports) : ∀ j ∈ ports, mid.ports j = pool.ports j := by
  intro j hj
  have hne : j ≠ i := fun heq => hi (heq ▸ hj)
  rw [hdenied.ports, Function.update_of_ne hne]

/-- The denial of one port leaves the power of the others. -/
theorem Denied₁.heldBy_eq (hdenied : Denied₁ i pool mid) {ports : List (Fin n)} (hi : i ∉ ports) :
    heldBy mid ports = heldBy pool ports := by
  refine congrArg List.sum (List.map_congr_left fun j hj => ?_)
  rw [hdenied.ports_of_mem hi j hj]

/-- So the others that had power still have it. -/
theorem Denied₁.powered_eq (hdenied : Denied₁ i pool mid) (hi : i ∉ order) :
    powered mid order = powered pool order := by
  apply List.filter_congr
  intro j hj
  rw [hdenied.ports_of_mem hi j hj]

/-- A port with power is the first of the powered ports. -/
theorem powered_cons (hpower : 0 < (pool.ports i).dpmPdPower) (order : List (Fin n)) :
    powered pool (i :: order) = i :: powered pool order := by
  rw [powered, List.filter_cons_of_pos (by simpa using hpower), ← powered]

/-- The power of several ports is that of the first and of the others. -/
theorem heldBy_cons (pool : PowerPool n) (i : Fin n) (ports : List (Fin n)) :
    heldBy pool (i :: ports) = (pool.ports i).dpmPdPower + heldBy pool ports := by
  rw [heldBy, List.map_cons, List.sum_cons, ← heldBy]

/-- The ports that are cut are ports of the order. -/
theorem Cut.subset (hcut : Cut order shed pool pool') : shed ⊆ order := by
  intro j hj
  exact (List.mem_filter.mp (hcut.isPrefix.subset hj)).1

/-- The first port of the order is cut, and then the rest. -/
theorem Cut.cons (hdenied : Denied₁ i pool mid) (hpower : 0 < (pool.ports i).dpmPdPower)
    (hover : pool.switch.totalInlinePowerAvailable < pool.switch.currentInlinePowerUsage)
    (hi : i ∉ order) (hcut : Cut order shed mid pool') :
    Cut (i :: order) (i :: shed) pool pool' := by
  have hpowered := hdenied.powered_eq hi
  have hshed : i ∉ shed := fun hmem => hi (hcut.subset hmem)
  have hheld := hdenied.heldBy_eq hshed
  refine ⟨?_, ?_, ?_, ?_, ?_, hcut.total.trans hdenied.total, ?_⟩
  · rw [powered_cons hpower, ← hpowered]
    exact (List.cons_prefix_cons).mpr ⟨rfl, hcut.isPrefix⟩
  · intro shorter hprefix hne
    cases shorter with
    | nil => simpa [heldBy] using hover
    | cons j shorter =>
        -- a shorter prefix cuts the port too, and less of the rest
        obtain ⟨rfl, hrest⟩ := List.cons_prefix_cons.mp hprefix
        have hlonger := hcut.shortest shorter hrest fun heq => hne (by rw [heq])
        rw [hdenied.total, hdenied.usage,
          hdenied.heldBy_eq fun hmem => hshed (hrest.subset hmem)] at hlonger
        rw [heldBy_cons, ← sub_sub]
        exact hlonger
  · rcases hcut.fits with hfits | hall
    · rw [hdenied.total, hdenied.usage, hheld] at hfits
      left
      rw [heldBy_cons, ← sub_sub]
      exact hfits
    · right
      rw [powered_cons hpower, ← hpowered, hall]
  · intro j hj
    rcases List.mem_cons.mp hj with rfl | hj
    · rw [hcut.kept j hshed, hdenied.ports, Function.update_self]
    · rw [hcut.shut j hj, hdenied.ports_of_mem hshed j hj]
  · intro j hj
    have hne : j ≠ i := fun heq => hj (by simp [heq])
    have hnot : j ∉ shed := fun hmem => hj (List.mem_cons_of_mem i hmem)
    rw [hcut.kept j hnot, hdenied.ports, Function.update_of_ne hne]
  · rw [hcut.usage, hdenied.usage, hheld, heldBy_cons, sub_sub]

/-- The first port of the order holds no power. -/
theorem Cut.skip (hzero : ¬ 0 < (pool.ports i).dpmPdPower) (hcut : Cut order shed pool pool') :
    Cut (i :: order) shed pool pool' := by
  have hpowered : powered pool (i :: order) = powered pool order :=
    List.filter_cons_of_neg (by simpa using hzero)
  exact
    { hcut with
      isPrefix := hpowered ▸ hcut.isPrefix
      fits := hpowered ▸ hcut.fits }

end Cut

/-- Nothing is done once the usage fits. -/
theorem denyPorts_same (order : List (Fin n))
    (hfits : pool.switch.currentInlinePowerUsage ≤ pool.switch.totalInlinePowerAvailable) :
    Sat (denyPorts build call order) pool (Disturbed build call) fun _ pool' => pool' = pool := by
  induction order with
  | nil => rfl
  | cons i order ih =>
      rw [denyPorts, sat_bind]
      refine (denyPort_same (Or.inl hfits)).mono (fun _ h => h) ?_
      rintro _ _ rfl
      exact ih

/-- The loop over the ports of a list. -/
theorem denyPorts_cut {order : List (Fin n)} (hnodup : order.Nodup) (h : Accounted pool) :
    Sat (denyPorts build call order) pool (Disturbed build call) fun _ pool' =>
      Accounted pool' ∧ ∃ shed, Cut order shed pool pool' := by
  induction order generalizing pool with
  -- all ports are cut, whether the usage fits now or not
  | nil =>
      refine ⟨h, [], ?_⟩
      exact ⟨List.nil_prefix, fun shorter hprefix hne => absurd (List.prefix_nil.mp hprefix) hne,
        Or.inr rfl, by simp, fun _ _ => rfl, rfl, by simp [heldBy]⟩
  | cons i order ih =>
      obtain ⟨hi, hrest⟩ := List.nodup_cons.mp hnodup
      by_cases hfits :
          pool.switch.currentInlinePowerUsage ≤ pool.switch.totalInlinePowerAvailable
      · refine (denyPorts_same (i :: order) hfits).mono (fun _ h => h) ?_
        rintro _ _ rfl
        exact ⟨h, [], cut_nil _ hfits⟩
      · rw [denyPorts, sat_bind]
        -- a port that holds nothing is skipped
        by_cases hpower : 0 < (pool.ports i).dpmPdPower
        · refine (denyPort_denied h hpower (not_le.mp hfits)).mono (fun _ h => h) ?_
          intro _ mid hdenied
          refine (ih hrest (hdenied.accounted h)).mono (fun _ h => h) ?_
          rintro _ pool' ⟨h', shed, hcut⟩
          exact ⟨h', i :: shed, hcut.cons hdenied hpower (not_le.mp hfits) hi⟩
        · refine (denyPort_same (Or.inr hpower)).mono (fun _ h => h) ?_
          rintro _ _ rfl
          refine (ih hrest h).mono (fun _ h => h) ?_
          rintro _ pool' ⟨h', shed, hcut⟩
          exact ⟨h', shed, hcut.skip hpower⟩

/-! ### The call -/

/-- What a call with the new total `total` does. The new usage is the sum of the powers again
and fits a total that is not negative. The ports of `shed` are cut in the order of the
hardware ports; a total that covers the usage changes nothing else. -/
structure Reduced (total : MilliWatts) (shed : List (Fin n)) (pool pool' : PowerPool n) :
    Prop where
  newTotal : pool'.switch.totalInlinePowerAvailable = total
  fits : 0 ≤ total → pool'.switch.currentInlinePowerUsage ≤ total
  accounted : Accounted pool'
  isPrefix : shed <+: powered pool (List.finRange n)
  shortest : ∀ shorter, shorter <+: shed → shorter ≠ shed →
    total < pool.switch.currentInlinePowerUsage - heldBy pool shorter
  removed : pool'.switch.currentInlinePowerUsage =
    pool.switch.currentInlinePowerUsage - heldBy pool shed
  shut : ∀ i ∈ shed, pool'.ports i = deniedPort (pool.ports i)
  kept : ∀ i, i ∉ shed → pool'.ports i = pool.ports i
  covered : pool.switch.currentInlinePowerUsage ≤ total →
    pool' = { pool with switch := { pool.switch with totalInlinePowerAvailable := total } }

/-- Where every powered port is cut, no power is in use. -/
theorem Cut.usage_eq_zero {pool' : PowerPool n} {shed : List (Fin n)} (h : Accounted pool)
    (h' : Accounted pool') (hcut : Cut (List.finRange n) shed pool pool')
    (hall : shed = powered pool (List.finRange n)) : pool'.switch.currentInlinePowerUsage = 0 := by
  rw [h'.usage]
  apply Finset.sum_eq_zero
  intro i _
  by_cases hi : i ∈ shed
  · rw [hcut.shut i hi]
    rfl
  · rw [hcut.kept i hi]
    have hzero : ¬ 0 < (pool.ports i).dpmPdPower := by
      intro hpower
      apply hi
      rw [hall]
      exact List.mem_filter.mpr ⟨List.mem_finRange i, by simpa using hpower⟩
    exact le_antisymm (not_lt.mp hzero) (h.nonneg i)

/-- The assertions that can stop a call. The last one of the function itself fails only for a
negative total. -/
def Stops (build : Build) (call : Call) (total : MilliWatts) (fn : Fn) : Prop :=
  Disturbed build call fn ∨ (fn = .totalInlinePowerAvailable ∧ total < 0)

/-- The pool with another total. -/
def withTotal (pool : PowerPool n) (total : MilliWatts) : PowerPool n :=
  { pool with switch := { pool.switch with totalInlinePowerAvailable := total } }

/-- The account does not depend on the total. -/
theorem accounted_withTotal (h : Accounted pool) (total : MilliWatts) :
    Accounted (withTotal pool total) := ⟨h.usage, h.auto, h.nonneg, h.notDenied⟩

/-- A total that covers the usage. -/
theorem reduced_of_covered (h : Accounted pool) {total : MilliWatts}
    (hcovered : pool.switch.currentInlinePowerUsage ≤ total) :
    Reduced total [] pool (withTotal pool total) where
  newTotal := rfl
  fits := fun _ => hcovered
  accounted := accounted_withTotal h total
  isPrefix := List.nil_prefix
  shortest := fun shorter hprefix hne => absurd (List.prefix_nil.mp hprefix) hne
  removed := by simp [heldBy, withTotal]
  shut := by simp
  kept := fun _ _ => rfl
  covered := fun _ => rfl

/-- A total that the loop has to make the usage fit. -/
theorem reduced_of_cut (h : Accounted pool) {total : MilliWatts} {shed : List (Fin n)}
    {pool' : PowerPool n} (hover : total < pool.switch.currentInlinePowerUsage)
    (h' : Accounted pool') (hcut : Cut (List.finRange n) shed (withTotal pool total) pool') :
    Reduced total shed pool pool' where
  newTotal := hcut.total
  fits := by
    intro hnonneg
    rcases hcut.fits with hfits | hall
    · rw [hcut.usage]
      exact hfits
    · rw [hcut.usage_eq_zero (accounted_withTotal h total) h' hall]
      exact hnonneg
  accounted := h'
  isPrefix := hcut.isPrefix
  shortest := hcut.shortest
  removed := hcut.usage
  shut := hcut.shut
  kept := hcut.kept
  covered := fun hcovered => absurd hover (not_lt.mpr hcovered)

/-- Forced power reduction. A call with a new total ends with the ports cut that have to be,
or stops where the environment fails an assertion. -/
theorem power_reduced (h : Accounted pool) (hfits : pool.switch.currentInlinePowerUsage ≤
      pool.switch.totalInlinePowerAvailable) (power : Int) :
    Sat (totalInlinePowerAvailable build call power) pool (Stops build call (power * 1000))
      fun _ pool' => ∃ shed, Reduced (power * 1000) shed pool pool' := by
  simp only [totalInlinePowerAvailable, sat_bind, sat_assert, sat_get, sat_ite, sat_modify,
    sat_pure]
  generalize power * 1000 = total
  refine ⟨fun hfail => absurd hfits hfail.2, fun _ => ⟨?_, fun _ => ⟨?_, ?_⟩⟩⟩
  · -- the total is the old one
    rintro rfl
    exact ⟨[], reduced_of_covered h hfits⟩
  · intro hover
    refine (denyPorts_cut (List.nodup_finRange n) (accounted_withTotal h total)).mono
      (fun _ hfn => Or.inl hfn) ?_
    rintro _ pool' ⟨h', shed, hcut⟩
    have hreduced := reduced_of_cut h hover h' hcut
    refine ⟨fun hfail => Or.inr ⟨rfl, ?_⟩, fun _ => ⟨shed, hreduced⟩⟩
    by_contra hnonneg
    apply hfail.2
    rw [hreduced.newTotal]
    exact hreduced.fits (not_lt.mp hnonneg)
  · intro hcovered
    exact ⟨fun hfail => absurd (not_lt.mp hcovered) hfail.2,
      fun _ => ⟨[], reduced_of_covered h (not_lt.mp hcovered)⟩⟩

end Pool

/-- A switch with 50 W, and three ports with 6 W, nothing and 15 W. -/
def threePorts : PowerPool 3 where
  switch := ⟨50000, 21000, 0, 100000, 0, -1, [0]⟩
  ports i := ⟨⟨true, .auto, 20000, true, 0, 0, 0⟩, .ieee0, ![6000, 0, 15000] i, false⟩
  module _ := 0
  pooled _ := true

/-- The pool of the example keeps its account. -/
theorem threePorts_accounted : Accounted threePorts where
  usage := by decide
  auto := fun _ => rfl
  nonneg := by decide
  notDenied := fun _ _ => rfl

/-- With 16 W the first port is cut, and that is enough. -/
theorem power_reduced_threePorts : ∃ pool' shed,
    totalInlinePowerAvailable .debug plainCall 16 threePorts = .ok ((), pool') ∧
      pool'.switch.currentInlinePowerUsage = 15000 ∧ Reduced 16000 shed threePorts pool' := by
  have hsat : Sat (totalInlinePowerAvailable .debug plainCall 16) threePorts
      (Stops .debug plainCall (16 * 1000)) fun _ pool' =>
        ∃ shed, Reduced 16000 shed threePorts pool' :=
    power_reduced threePorts_accounted (by decide) 16
  obtain ⟨shed, hreduced⟩ := hsat.post_of_ok rfl
  exact ⟨_, shed, rfl, rfl, hreduced⟩

end MyTestFiles.Proofs.InlinePower
