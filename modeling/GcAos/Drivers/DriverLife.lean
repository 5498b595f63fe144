import GcAos.Drivers.LifecycleCtx
import GcAos.Lib.Census

/-! The list of the drivers and its counters over loads, unloads, probes and removals. -/

namespace GcAos.Drivers
open Lib

variable {s s' : LifecycleCtx} {m : ListHeads Node} {k : BitVec 32} {driver device : ℕ}
  {state : DriverState} {flags : BitVec 32} {force : Bool} {ops : DriverOps}

/-- The drivers form a circular list, with each of them once, and the counters are those of the list,
of the active drivers and of the bound devices. -/
structure DriversOk (s : LifecycleCtx) : Prop where
  drivers : ∃ l : List ℕ, s.links.Circular .drivers (l.map .driver) ∧ s.driverCount = .ofNat 32 l.length
  active : s.activeDrivers = .ofNat 32 {d | s.driver d = .active}.ncard
  bound : s.boundDevices = .ofNat 32 {d | (s.device d).boundDriver ≠ 0}.ncard

/-! ## The three parts -/

theorem driver_kind : ListHeads.NodeKind Node.null {.drivers} .driver where
  inj _ _ := Node.driver.inj
  not_head _ := Node.noConfusion
  ne_null _ := Node.noConfusion
  null_notMem := Node.noConfusion

def DriverList (m : ListHeads Node) (k : BitVec 32) : Prop :=
  ∃ r, m.Intrusive .null {.drivers} .driver r ∧ k = .ofNat 32 (r .drivers).length

theorem DriverList.add (h : DriverList m k) (hnew : m.next (.driver driver) = .null) :
    m.prev .drivers ≠ .null ∧ DriverList (m.listAddTail (.driver driver) .drivers) (k + 1) ∧
      (m.listAddTail (.driver driver) .drivers).next (.driver driver) ≠ .null := by
  obtain ⟨r, hm, rfl⟩ := h
  obtain ⟨hprev, hm'⟩ := hm.listAddTail (Set.mem_singleton _) hnew
  refine ⟨hprev, ⟨_, hm', ?_⟩, fun hnull => ?_⟩
  · rw [Function.update_self, List.length_append, List.length_singleton, BitVec.ofNat_add]
    rfl
  · have hnot := (hm'.free driver).mp hnull .drivers (Set.mem_singleton _)
    rw [Function.update_self] at hnot
    exact hnot (List.mem_append_right _ (List.mem_singleton_self driver))

theorem DriverList.del (h : DriverList m k) (hold : m.next (.driver driver) ≠ .null) :
    m.prev (.driver driver) ≠ .null ∧ DriverList (m.listDel .null (.driver driver)) (k - 1) := by
  obtain ⟨r, hm, rfl⟩ := h
  have hl : driver ∈ r .drivers := by
    by_contra hnot
    refine hold ((hm.free driver).mpr fun h hh => ?_)
    rw [Set.mem_singleton_iff.mp hh]
    exact hnot
  obtain ⟨xs, ys, hsplit⟩ := List.append_of_mem hl
  obtain ⟨hprev, -, hm'⟩ := hm.listDel (Set.mem_singleton _) hsplit
  refine ⟨hprev, _, hm', ?_⟩
  have hlength : (r .drivers).length = (xs ++ ys).length + 1 := by
    rw [hsplit, List.length_append, List.length_append, List.length_cons, Nat.add_assoc]
  rw [Function.update_self, hlength, BitVec.ofNat_add]
  exact BitVec.add_sub_cancel _ _

def ActiveCount (s : LifecycleCtx) : Prop :=
  ∃ n, Census s.driver (· = .active) n ∧ s.activeDrivers = .ofNat 32 n

def BoundCount (s : LifecycleCtx) : Prop :=
  ∃ n, Census s.device (·.boundDriver ≠ 0) n ∧ s.boundDevices = .ofNat 32 n

theorem ActiveCount.setDriver (h : ActiveCount s) (hold : s.driver driver ≠ .active)
    (hnew : state ≠ .active) : ActiveCount (s.setDriver driver state) := by
  obtain ⟨n, hcensus, hcount⟩ := h
  exact ⟨n, hcensus.same (iff_of_false hnew hold), hcount⟩

theorem setDriver_self : (s.setDriver driver state).driver driver = state := Function.update_self ..

theorem setDriver_twice {state' : DriverState} :
    (s.setDriver driver state').setDriver driver state = s.setDriver driver state := by
  unfold LifecycleCtx.setDriver
  dsimp only
  rw [Function.update_idem]

structure LifeInv (s : LifecycleCtx) : Prop where
  list : DriverList s.links s.driverCount
  active : ActiveCount s
  bound : BoundCount s

theorem LifeInv.ok (h : LifeInv s) : DriversOk s := by
  obtain ⟨r, hm, hcount⟩ := h.list
  obtain ⟨n, hactive, hn⟩ := h.active
  obtain ⟨k, hbound, hk⟩ := h.bound
  exact ⟨⟨_, hm.ring .drivers (Set.mem_singleton _), hcount⟩,
    by rw [hn, hactive.card], by rw [hk, hbound.card]⟩

theorem LifeInv.setDriver (h : LifeInv s) (hold : s.driver driver ≠ .active) (hnew : state ≠ .active) :
    LifeInv (s.setDriver driver state) :=
  ⟨h.list, h.active.setDriver hold hnew, h.bound⟩

/-! ## The calls -/

/-- The calls that the life cycle is for: a driver is loaded when its node is free, and not with a probe
that would succeed at once; it is unloaded when it is not active and on the list; a device is bound when
it is not bound yet, and removed from an active driver when it is bound and the operation succeeds. The
rest are calls that refuse or fail. -/
def DriverCall.Sound (s : LifecycleCtx) : DriverCall → Prop
  | .load driver flags ops =>
      driver = 0 ∨ s.driver driver = .loaded ∨ s.driver driver = .active ∨
        s.links.next (.driver driver) = .null ∧
          (flags &&& driverFlagAutoprobe = 0 ∨ ops.load ≠ 0 ∨ ops.probe ≠ 0)
  | .unload driver force ops =>
      driver = 0 ∨ (force = false ∧ s.driver driver = .active ∧ 0 < ops.refcount) ∨
        s.driver driver ≠ .active ∧
          (s.links.next (.driver driver) ≠ .null ∨ ops.unload ≠ 0 ∧ force = false)
  | .probe driver device ops =>
      driver = 0 ∨ s.driver driver ≠ .loaded ∨ ops.probe ≠ 0 ∨ device = 0 ∨
        (s.device device).boundDriver = 0
  | .remove driver device force ops =>
      driver = 0 ∨ (s.driver driver ≠ .active ∧ force = false) ∨
        s.driver driver = .active ∧ (ops.remove = 0 ∨ force = true) ∧
          (device = 0 ∨ (s.device device).boundDriver ≠ 0)

theorem LifeInv.add (h : LifeInv s) (hnew : s.links.next (.driver driver) = .null) :
    ∃ t, s.listAddTail (.driver driver) .drivers = some t ∧
      LifeInv { t with driverCount := t.driverCount + 1 } ∧ t.driver = s.driver ∧
      t.links.next (.driver driver) ≠ .null := by
  obtain ⟨hprev, hlist, hself⟩ := h.list.add hnew
  exact ⟨_, if_neg hprev, ⟨hlist, h.active, h.bound⟩, rfl, hself⟩

theorem LifeInv.del (h : LifeInv s) (hold : s.links.next (.driver driver) ≠ .null) :
    ∃ t, s.listDel (.driver driver) = some t ∧
      LifeInv { t with driverCount := t.driverCount - 1 } ∧ t.driver = s.driver := by
  obtain ⟨hprev, hlist⟩ := h.list.del hold
  exact ⟨_, if_neg (not_or.mpr ⟨hprev, hold⟩), ⟨hlist, h.active, h.bound⟩, rfl⟩

theorem LifeInv.unload (h : LifeInv s) (hs : (DriverCall.unload driver force ops).Sound s) :
    ∃ t r, s.driverLifecycleUnload driver force ops = some (t, r) ∧ LifeInv t := by
  unfold LifecycleCtx.driverLifecycleUnload
  by_cases h0 : driver = 0
  · exact ⟨s, -einval, by rw [if_pos h0], h⟩
  rw [if_neg h0]
  by_cases hbusy : force = false ∧ s.driver driver = .active ∧ 0 < ops.refcount
  · exact ⟨s, -ebusy, by rw [if_pos hbusy], h⟩
  rw [if_neg hbusy]
  obtain ⟨hidle, hlinked⟩ := (hs.resolve_left h0).resolve_left hbusy
  have hi : LifeInv (s.setDriver driver .unloading) := h.setDriver hidle (by decide)
  have hstate : (s.setDriver driver .unloading).driver driver ≠ .active := by
    rw [setDriver_self]
    decide
  dsimp only
  by_cases hfail : ops.unload ≠ 0 ∧ force = false
  · rw [if_pos hfail]
    exact ⟨_, _, rfl, hi.setDriver hstate (by decide)⟩
  · rw [if_neg hfail]
    obtain ⟨t, hdel, ht, hdriver⟩ := hi.del (hlinked.resolve_right hfail)
    rw [hdel]
    refine ⟨_, _, rfl, ht.setDriver ?_ (by decide)⟩
    rw [← hdriver] at hstate
    exact hstate

theorem ActiveCount.activate (h : ActiveCount s) (hloaded : s.driver driver ≠ .active) :
    ActiveCount { s.setDriver driver .active with activeDrivers := s.activeDrivers + 1 } := by
  obtain ⟨n, hcensus, hcount⟩ := h
  refine ⟨n + 1, hcensus.gain hloaded rfl, ?_⟩
  dsimp only
  rw [hcount, BitVec.ofNat_add]
  rfl

theorem ActiveCount.deactivate (h : ActiveCount s) (hactive : s.driver driver = .active)
    (hnew : state ≠ .active) :
    ActiveCount { s.setDriver driver state with activeDrivers := s.activeDrivers - 1 } := by
  obtain ⟨n, hcensus, hcount⟩ := h
  obtain ⟨k, rfl, hcensus'⟩ := hcensus.lose hactive hnew
  refine ⟨k, hcensus', ?_⟩
  dsimp only
  rw [hcount, BitVec.ofNat_add]
  exact BitVec.add_sub_cancel _ _

theorem BoundCount.bind (h : BoundCount s) (hfree : (s.device device).boundDriver = 0)
    (h0 : driver ≠ 0) :
    BoundCount { s.setDevice device { s.device device with boundDriver := driver } with
      boundDevices := s.boundDevices + 1 } := by
  obtain ⟨n, hcensus, hcount⟩ := h
  refine ⟨n + 1, hcensus.gain (not_not.mpr hfree) h0, ?_⟩
  dsimp only
  rw [hcount, BitVec.ofNat_add]
  rfl

theorem BoundCount.release (h : BoundCount s) (hheld : (s.device device).boundDriver ≠ 0) :
    BoundCount { s.setDevice device { s.device device with boundDriver := 0 } with
      boundDevices := s.boundDevices - 1 } := by
  obtain ⟨n, hcensus, hcount⟩ := h
  obtain ⟨k, rfl, hcensus'⟩ :=
    hcensus.lose (v := { s.device device with boundDriver := 0 }) hheld (not_not.mpr rfl)
  refine ⟨k, hcensus', ?_⟩
  dsimp only
  rw [hcount, BitVec.ofNat_add]
  exact BitVec.add_sub_cancel _ _

theorem LifeInv.probe (h : LifeInv s) (hs : (DriverCall.probe driver device ops).Sound s) :
    LifeInv (s.driverLifecycleProbe driver device ops).1 := by
  unfold LifecycleCtx.driverLifecycleProbe
  by_cases h0 : driver = 0
  · rw [if_pos h0]
    exact h
  rw [if_neg h0]
  by_cases hstate : s.driver driver ≠ .loaded
  · rw [if_pos hstate]
    exact h
  rw [if_neg hstate]
  have hloaded : s.driver driver ≠ .active := by
    rw [not_not.mp hstate]
    decide
  dsimp only
  rw [setDriver_twice, setDriver_twice]
  have hactive := h.active.activate hloaded
  by_cases hprobe : ops.probe = 0
  · rw [if_pos hprobe]
    by_cases hdevice : device ≠ 0
    · rw [if_pos hdevice]
      have hfree : (s.device device).boundDriver = 0 :=
        (((hs.resolve_left h0).resolve_left hstate).resolve_left
          (not_not.mpr hprobe)).resolve_left hdevice
      exact ⟨h.list, hactive, h.bound.bind hfree h0⟩
    · rw [if_neg hdevice]
      exact ⟨h.list, hactive, h.bound⟩
  · rw [if_neg hprobe]
    have hi : LifeInv (s.setDriver driver .error) := h.setDriver hloaded (by decide)
    exact ⟨hi.list, hi.active, hi.bound⟩

theorem LifeInv.remove (h : LifeInv s) (hs : (DriverCall.remove driver device force ops).Sound s) :
    LifeInv (s.driverLifecycleRemove driver device force ops).1 := by
  unfold LifecycleCtx.driverLifecycleRemove
  by_cases h0 : driver = 0
  · rw [if_pos h0]
    exact h
  rw [if_neg h0]
  by_cases hrefused : s.driver driver ≠ .active ∧ force = false
  · rw [if_pos hrefused]
    exact h
  rw [if_neg hrefused]
  obtain ⟨hactive, hret, hbound⟩ := (hs.resolve_left h0).resolve_left hrefused
  have hfail : ¬ (ops.remove ≠ 0 ∧ force = false) := by
    rintro ⟨hne, hforce⟩
    rcases hret with hret | hret
    · exact hne hret
    · exact Bool.false_ne_true (hforce.symm.trans hret)
  dsimp only
  rw [if_neg hfail]
  have hactive' : ActiveCount
      { s.setDriver driver .loaded with activeDrivers := s.activeDrivers - 1 } :=
    h.active.deactivate hactive (by decide)
  by_cases hdevice : device ≠ 0
  · rw [if_pos hdevice]
    refine ⟨h.list, ?_, h.bound.release (hbound.resolve_left hdevice)⟩
    have hdrivers : ((s.setDriver driver .unbinding).setDriver driver .loaded).driver =
        (s.setDriver driver .loaded).driver := congrArg LifecycleCtx.driver setDriver_twice
    obtain ⟨n, hcensus, hcount⟩ := hactive'
    exact ⟨n, hdrivers ▸ hcensus, hcount⟩
  · rw [if_neg hdevice, setDriver_twice]
    exact ⟨h.list, hactive', h.bound⟩

theorem probe_loading (h0 : driver ≠ 0) (hstate : s.driver driver = .loading) :
    s.driverLifecycleProbe driver device ops = (s, -einval) := by
  have hne : s.driver driver ≠ .loaded := by
    rw [hstate]
    decide
  unfold LifecycleCtx.driverLifecycleProbe
  rw [if_neg h0, if_pos hne]

theorem LifeInv.load (h : LifeInv s) (hs : (DriverCall.load driver flags ops).Sound s) :
    ∃ t r, s.driverLifecycleLoad driver flags ops = some (t, r) ∧ LifeInv t := by
  unfold LifecycleCtx.driverLifecycleLoad
  by_cases h0 : driver = 0
  · exact ⟨s, -einval, by rw [if_pos h0], h⟩
  rw [if_neg h0]
  by_cases hexist : s.driver driver = .loaded ∨ s.driver driver = .active
  · exact ⟨s, -eexist, by rw [if_pos hexist], h⟩
  rw [if_neg hexist]
  obtain ⟨hloaded, hidle⟩ := not_or.mp hexist
  obtain ⟨hnew, -⟩ := ((hs.resolve_left h0).resolve_left hloaded).resolve_left hidle
  have hi : LifeInv (s.setDriver driver .loading) := h.setDriver hidle (by decide)
  dsimp only
  obtain ⟨t, hadd, ht, hdriver, hself⟩ := hi.add hnew
  rw [hadd]
  have hstate : t.driver driver = .loading := by
    rw [hdriver]
    exact setDriver_self
  have hidle' : t.driver driver ≠ .active := by
    rw [hstate]
    decide
  simp only [Option.bind_eq_bind, Option.bind_some]
  by_cases hload : ops.load ≠ 0
  · rw [if_pos hload]
    have hti : LifeInv
        (LifecycleCtx.setDriver { t with driverCount := t.driverCount + 1 } driver .error) :=
      ht.setDriver hidle' (by decide)
    obtain ⟨u, hdel, hu, -⟩ := hti.del hself
    rw [hdel]
    exact ⟨_, _, rfl, hu⟩
  rw [if_neg hload]
  by_cases hauto : flags &&& driverFlagAutoprobe = 0
  · rw [if_pos hauto]
    exact ⟨_, _, rfl, ht.setDriver hidle' (by decide)⟩
  have hprobe : LifecycleCtx.driverLifecycleProbe
      { t with driverCount := t.driverCount + 1 } driver 0 ops =
      ({ t with driverCount := t.driverCount + 1 }, -einval) := probe_loading h0 hstate
  rw [if_neg hauto, hprobe]
  dsimp only
  split
  · -- the driver is unloaded, since its probe was refused
    have hsound : (DriverCall.unload driver false ops).Sound
        { t with driverCount := t.driverCount + 1 } := .inr (.inr ⟨hidle', .inl hself⟩)
    obtain ⟨u, r, hunload, hu⟩ := ht.unload hsound
    rw [hunload]
    exact ⟨_, _, rfl, hu⟩
  · exact ⟨_, _, rfl, ht.setDriver hidle' (by decide)⟩

theorem LifeInv.call (h : LifeInv s) {c : DriverCall} (hs : c.Sound s) :
    ∃ t r, s.driverCall c = some (t, r) ∧ LifeInv t := by
  cases c with
  | load driver flags ops => exact h.load hs
  | unload driver force ops => exact h.unload hs
  | probe driver device ops => exact ⟨_, _, rfl, h.probe hs⟩
  | remove driver device force ops => exact ⟨_, _, rfl, h.remove hs⟩

theorem lifecycleInit_inv : LifeInv lifecycleInit := by
  refine ⟨⟨fun _ => [], .of_rings driver_kind (fun h hh => ?_) (fun d _ => ?_)
    (fun _ _ _ _ _ hd => ?_), rfl⟩,
    ⟨0, .empty fun d => ?_, rfl⟩, ⟨0, .empty fun d => not_not.mpr rfl, rfl⟩⟩
  · rw [Set.mem_singleton_iff.mp hh]
    exact .empty (by decide) (by decide)
  · simp [lifecycleInit, emptyLinks, ListHeads.initListHead_next]
  · exact absurd hd List.not_mem_nil
  · show DriverState.uninitialized ≠ .active
    decide

def SoundStep (s : LifecycleCtx) (c : DriverCall) (t : LifecycleCtx) : Prop :=
  c.Sound s ∧ ∃ r, s.driverCall c = some (t, r)

theorem soundStep_inv (s : LifecycleCtx) (c : DriverCall) (t : LifecycleCtx) (h : LifeInv s)
    (hstep : SoundStep s c t) : LifeInv t := by
  obtain ⟨hs, r, hcall⟩ := hstep
  obtain ⟨t', r', hcall', ht⟩ := h.call hs
  obtain ⟨rfl, -⟩ := pair_inj (hcall'.symm.trans hcall)
  exact ht

theorem unload_not_active (h0 : driver ≠ 0) (hidle : s.driver driver ≠ .active) {r : ℤ}
    (hcall : s.driverLifecycleUnload driver force ops = some (s', r)) : s'.driver driver ≠ .active := by
  have hbusy : ¬ (force = false ∧ s.driver driver = .active ∧ 0 < ops.refcount) :=
    fun hcon => hidle hcon.2.1
  unfold LifecycleCtx.driverLifecycleUnload at hcall
  rw [if_neg h0, if_neg hbusy] at hcall
  dsimp only at hcall
  split at hcall
  · obtain ⟨rfl, -⟩ := pair_inj hcall
    rw [setDriver_self]
    decide
  · obtain ⟨t, -, hcall⟩ := Option.bind_eq_some_iff.mp hcall
    obtain ⟨rfl, -⟩ := pair_inj hcall
    rw [setDriver_self]
    decide

theorem autoprobe_not_active (h0 : driver ≠ 0) (hloaded : s.driver driver ≠ .loaded)
    (hidle : s.driver driver ≠ .active) (hauto : flags &&& driverFlagAutoprobe ≠ 0) {r : ℤ}
    (hload : ops.load = 0)
    (hcall : s.driverLifecycleLoad driver flags ops = some (s', r)) : s'.driver driver ≠ .active := by
  have hexist : ¬ (s.driver driver = .loaded ∨ s.driver driver = .active) := not_or.mpr ⟨hloaded, hidle⟩
  unfold LifecycleCtx.driverLifecycleLoad at hcall
  rw [if_neg h0, if_neg hexist] at hcall
  obtain ⟨t, hadd, hcall⟩ := Option.bind_eq_some_iff.mp hcall
  have hstate : t.driver driver = .loading := by
    unfold LifecycleCtx.listAddTail at hadd
    split at hadd
    · cases hadd
    · obtain rfl := Option.some.inj hadd
      exact setDriver_self
  dsimp only at hcall
  have hprobe : LifecycleCtx.driverLifecycleProbe
      { t with driverCount := t.driverCount + 1 } driver 0 ops =
      ({ t with driverCount := t.driverCount + 1 }, -einval) := probe_loading h0 hstate
  rw [if_neg (not_not.mpr hload), if_neg hauto, hprobe] at hcall
  dsimp only at hcall
  split at hcall
  · obtain ⟨⟨u, r'⟩, hunload, hcall⟩ := Option.bind_eq_some_iff.mp hcall
    obtain ⟨rfl, -⟩ := pair_inj hcall
    exact unload_not_active h0 (by rw [hstate]; decide) hunload
  · obtain ⟨rfl, -⟩ := pair_inj hcall
    rw [setDriver_self]
    decide

/-- While every call is one of those the life cycle is for, no call fails, the list of the drivers is in
order and the counters agree with it. A load with `DRIVER_FLAG_AUTOPROBE` and operations that succeed is
none of these: it never leaves its driver active. -/
theorem driver_life_cycle {calls : List DriverCall} (hrun : Exec SoundStep lifecycleInit calls s) :
    DriversOk s ∧ (∀ c : DriverCall, c.Sound s → ∃ t r, s.driverCall c = some (t, r) ∧ DriversOk t) ∧
      ∀ driver flags ops, driver ≠ 0 → s.driver driver ≠ .loaded → s.driver driver ≠ .active →
        flags &&& driverFlagAutoprobe ≠ 0 → ops.load = 0 → ops.probe = 0 →
        ∀ t r, s.driverCall (.load driver flags ops) = some (t, r) → t.driver driver ≠ .active := by
  have hi := hrun.invariant soundStep_inv lifecycleInit_inv
  refine ⟨hi.ok, fun c hs => ?_, ?_⟩
  · obtain ⟨t, r, hcall, ht⟩ := hi.call hs
    exact ⟨t, r, hcall, ht.ok⟩
  · intro driver flags ops h0 hloaded hidle hauto hload _ t r hcall
    exact autoprobe_not_active h0 hloaded hidle hauto hload hcall

instance : (c : DriverCall) → Decidable (c.Sound s)
  | .load .. => inferInstanceAs (Decidable (_ ∨ _ ∨ _ ∨ _ ∧ (_ ∨ _ ∨ _)))
  | .unload .. => inferInstanceAs (Decidable (_ ∨ _ ∧ _ ∧ _ ∨ _ ∧ (_ ∨ _ ∧ _)))
  | .probe .. => inferInstanceAs (Decidable (_ ∨ _ ∨ _ ∨ _ ∨ _))
  | .remove .. => inferInstanceAs (Decidable (_ ∨ _ ∧ _ ∨ _ ∧ (_ ∨ _) ∧ (_ ∨ _)))

/-- Of two drivers the first one is bound to a device and removed from it; the load of a third one
fails, and the second one is unloaded. -/
def threeDrivers : List DriverCall :=
  [.load 1 0 {}, .load 2 0 {}, .probe 1 7 {}, .load 3 0 { load := -5 }, .unload 1 false { refcount := 1 },
    .remove 1 7 false {}, .unload 2 false {}]

theorem driver_life_cycle_three : ∃ s, Exec SoundStep lifecycleInit threeDrivers s ∧ DriversOk s ∧
    s.driverCount = 1 ∧ s.driver 1 = .loaded ∧ s.driver 2 = .removed ∧ s.driver 3 = .error := by
  have hrun : Exec SoundStep lifecycleInit threeDrivers _ :=
    .cons ⟨by decide, _, rfl⟩ <| .cons ⟨by decide, _, rfl⟩ <| .cons ⟨by decide, _, rfl⟩ <|
      .cons ⟨by decide, _, rfl⟩ <| .cons ⟨by decide, _, rfl⟩ <| .cons ⟨by decide, _, rfl⟩ <|
        .cons ⟨by decide, _, rfl⟩ (.nil _)
  exact ⟨_, hrun, (driver_life_cycle hrun).1, by decide, by decide, by decide, by decide⟩

/-- A driver that is loaded with `DRIVER_FLAG_AUTOPROBE` is unloaded again, although its operations
succeed; and a driver that is unloaded while it is active stays counted. -/
theorem driver_life_cycle_fails :
    (lifecycleInit.driverCall (.load 1 driverFlagAutoprobe {})).map (fun p => (p.1.driver 1, p.2)) =
        some (.removed, -einval) ∧
      ∃ s, [.load 1 0 {}, .probe 1 0 {}, .unload 1 true {}].foldlM
          (fun s (c : DriverCall) => (s.driverCall c).map Prod.fst) lifecycleInit = some s ∧
        ¬ DriversOk s := by
  refine ⟨by decide, _, rfl, fun hok => ?_⟩
  have hcensus : Census (Function.update (Function.update (Function.update (Function.update
      (Function.update
        (Function.update lifecycleInit.driver 1 .loading) 1 .loaded) 1 .probing) 1 .active)
      1 .unloading) 1 .removed) (· = DriverState.active) 0 := by
    refine .empty fun d => ?_
    by_cases hd : d = 1
    · rw [hd]
      decide
    · simp only [Function.update_of_ne hd]
      show DriverState.uninitialized ≠ .active
      decide
  have hcount : (1 : BitVec 32) = .ofNat 32 0 :=
    hok.active.trans (congrArg (BitVec.ofNat 32) hcensus.card)
  exact absurd hcount (by decide)

end GcAos.Drivers
