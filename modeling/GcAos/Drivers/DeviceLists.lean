import GcAos.Drivers.LifecycleCtx
import GcAos.Lib.Exec

/-! The lists of the devices over additions, removals and error reports. A device has one `list`
node for all of them. -/

namespace GcAos.Drivers
open Lib

variable {s t : LifecycleCtx} {driver device : ℕ} {hotplug force : Bool} {ops : DriverOps} {ret : ℤ}

/-- The devices, and which of them have been added and not removed since, with or without hotplug. -/
structure DeviceHistory where
  sys : LifecycleCtx
  added : ℕ → Option Bool

namespace DeviceHistory

def after (h : DeviceHistory) : DeviceCall → ℕ → Option Bool
  | .add device hotplug => if device = 0 then h.added else Function.update h.added device (some hotplug)
  | .remove device _ _ => if device = 0 then h.added else Function.update h.added device none
  | .errorReport _ _ _ => h.added

structure ListsOk (h : DeviceHistory) : Prop where
  devices : ∃ l : List ℕ, h.sys.links.Circular .devices (l.map .device) ∧
    (∀ d, d ∈ l ↔ (h.added d).isSome) ∧ h.sys.deviceCount = .ofNat 32 l.length
  hotplug : ∃ l : List ℕ, h.sys.links.Circular .hotplugDevices (l.map .device) ∧
    ∀ d, d ∈ l ↔ h.added d = some true
  errors : ∃ l : List ℕ, h.sys.links.Circular .errorDevices (l.map .device)

/-- The calls that the lists are for: a device is added without hotplug when its node is free, and
removed when it has been added; the first error of a device is reported while its node is free. -/
def Sound (h : DeviceHistory) : DeviceCall → Prop
  | .add device hotplug => device = 0 ∨ hotplug = false ∧ h.sys.links.next (.device device) = .null
  | .remove device _ _ => device = 0 ∨ (h.added device).isSome
  | .errorReport driver device _ =>
      driver = 0 ∨ device = 0 ∨ (h.sys.device device).errorCount ≠ 0 ∨
        h.sys.links.next (.device device) = .null

def deviceHeads : Set Node := {.devices, .hotplugDevices, .errorDevices}

theorem device_kind : ListHeads.NodeKind Node.null deviceHeads .device where
  inj _ _ := Node.device.inj
  not_head _ := by simp [deviceHeads]
  ne_null _ := Node.noConfusion
  null_notMem := by simp [deviceHeads]

theorem devices_mem : Node.devices ∈ deviceHeads := by simp [deviceHeads]

theorem errorDevices_mem : Node.errorDevices ∈ deviceHeads := by simp [deviceHeads]

theorem hotplugDevices_mem : Node.hotplugDevices ∈ deviceHeads := by simp [deviceHeads]

/-- What such calls keep: nothing is added with hotplug, and the node of a device is in one list. -/
structure Inv (h : DeviceHistory) (r : Node → List ℕ) : Prop where
  lists : h.sys.links.Intrusive .null deviceHeads .device r
  devices : ∀ d, d ∈ r .devices ↔ h.added d = some false
  hotplug : r .hotplugDevices = []
  plain : ∀ d, h.added d ≠ some true
  capable : ∀ d, h.added d = some false → (h.sys.device d).hotplugCapable = false
  count : h.sys.deviceCount = .ofNat 32 (r .devices).length

theorem Inv.ok {h : DeviceHistory} {r : Node → List ℕ} (hi : h.Inv r) : h.ListsOk := by
  refine ⟨⟨_, hi.lists.ring _ devices_mem, fun d => ?_, hi.count⟩,
    ⟨_, hi.lists.ring _ hotplugDevices_mem, fun d => ?_⟩, ⟨_, hi.lists.ring _ errorDevices_mem⟩⟩
  · rw [hi.devices, Option.isSome_iff_exists]
    constructor
    · exact fun heq => ⟨false, heq⟩
    · rintro ⟨b, heq⟩
      cases b
      · exact heq
      · exact absurd heq (hi.plain d)
  · rw [hi.hotplug]
    exact iff_of_false List.not_mem_nil (hi.plain d)

end DeviceHistory

/-! ## The calls -/

theorem remove_frame (s : LifecycleCtx) (driver device : ℕ) (force : Bool) (ops : DriverOps) :
    (s.driverLifecycleRemove driver device force ops).1.links = s.links ∧
      (s.driverLifecycleRemove driver device force ops).1.deviceCount = s.deviceCount ∧
      ∀ d, ((s.driverLifecycleRemove driver device force ops).1.device d).hotplugCapable =
        (s.device d).hotplugCapable := by
  unfold LifecycleCtx.driverLifecycleRemove
  by_cases h0 : driver = 0
  · rw [if_pos h0]
    exact ⟨rfl, rfl, fun _ => rfl⟩
  rw [if_neg h0]
  by_cases hrefused : s.driver driver ≠ .active ∧ force = false
  · rw [if_pos hrefused]
    exact ⟨rfl, rfl, fun _ => rfl⟩
  rw [if_neg hrefused]
  dsimp only
  by_cases hfail : ops.remove ≠ 0 ∧ force = false
  · rw [if_pos hfail]
    exact ⟨rfl, rfl, fun _ => rfl⟩
  rw [if_neg hfail]
  by_cases hdevice : device ≠ 0
  · rw [if_pos hdevice]
    refine ⟨rfl, rfl, fun d => ?_⟩
    show (Function.update s.device device _ d).hotplugCapable = _
    by_cases hd : d = device
    · rw [hd, Function.update_self]
      rfl
    · rw [Function.update_of_ne hd]
  · rw [if_neg hdevice]
    exact ⟨rfl, rfl, fun _ => rfl⟩

namespace DeviceHistory

variable {h : DeviceHistory} {r : Node → List ℕ}

theorem Inv.keep (hi : h.Inv r) (hlinks : t.links = h.sys.links)
    (hcapable : ∀ d, (t.device d).hotplugCapable = (h.sys.device d).hotplugCapable)
    (hcount : t.deviceCount = h.sys.deviceCount) : Inv ⟨t, h.added⟩ r where
  lists := hlinks ▸ hi.lists
  devices := hi.devices
  hotplug := hi.hotplug
  plain := hi.plain
  capable d hd := (hcapable d).trans (hi.capable d hd)
  count := hcount.trans hi.count

theorem Inv.add (hi : h.Inv r) (hs : h.Sound (.add device hotplug)) :
    ∃ t ret, h.sys.deviceLifecycleAdd device hotplug = some (t, ret) ∧
      ∃ r', Inv ⟨t, h.after (.add device hotplug)⟩ r' := by
  unfold LifecycleCtx.deviceLifecycleAdd after
  dsimp only
  by_cases h0 : device = 0
  · rw [if_pos h0, if_pos h0]
    exact ⟨_, _, rfl, r, hi⟩
  rw [if_neg h0, if_neg h0]
  obtain ⟨rfl, hfree⟩ := hs.resolve_left h0
  obtain ⟨hprev, hlists⟩ := hi.lists.listAddTail devices_mem hfree
  have hadd : (h.sys.setDevice device { boundDriver := 0, hotplugCapable := false, errorCount :=
      0 }).listAddTail
      (.device device) .devices = some { h.sys.setDevice device
        { boundDriver := 0, hotplugCapable := false, errorCount := 0 } with
        links := h.sys.links.listAddTail (.device device) .devices } := if_neg hprev
  rw [hadd]
  refine ⟨_, _, rfl, _, ⟨hlists, fun d => ?_, ?_, fun d => ?_, fun d hd => ?_, ?_⟩⟩
  · rw [Function.update_self, List.mem_append, List.mem_singleton, hi.devices]
    dsimp only
    by_cases hd : d = device
    · rw [hd, Function.update_self]
      simp
    · rw [Function.update_of_ne hd]
      simp [hd]
  · rw [Function.update_of_ne Node.noConfusion]
    exact hi.hotplug
  · dsimp only
    by_cases hd : d = device
    · rw [hd, Function.update_self]
      simp
    · rw [Function.update_of_ne hd]
      exact hi.plain d
  · dsimp only at hd
    show (Function.update h.sys.device device _ d).hotplugCapable = false
    by_cases hdd : d = device
    · rw [hdd, Function.update_self]
    · rw [Function.update_of_ne hdd] at hd ⊢
      exact hi.capable d hd
  · rw [Function.update_self, List.length_append, List.length_singleton, BitVec.ofNat_add, ← hi.count]
    rfl

theorem Inv.remove (hi : h.Inv r) (hs : h.Sound (.remove device force ops)) :
    ∃ t ret, h.sys.deviceLifecycleRemove device force ops = some (t, ret) ∧
      ∃ r', Inv ⟨t, h.after (.remove device force ops)⟩ r' := by
  unfold LifecycleCtx.deviceLifecycleRemove after
  dsimp only
  by_cases h0 : device = 0
  · rw [if_pos h0, if_pos h0]
    exact ⟨_, _, rfl, r, hi⟩
  rw [if_neg h0, if_neg h0]
  have hadded : h.added device = some false := by
    obtain ⟨b, hb⟩ := Option.isSome_iff_exists.mp (hs.resolve_left h0)
    cases b
    · exact hb
    · exact absurd hb (hi.plain device)
  obtain ⟨xs, ys, hsplit⟩ := List.append_of_mem ((hi.devices device).mpr hadded)
  have hnd := hi.lists.nodup devices_mem
  rw [hsplit] at hnd
  have hnot := (List.nodup_cons.mp (List.nodup_middle.mp hnd)).1
  obtain ⟨u, hu⟩ : ∃ u, u = if (h.sys.device device).boundDriver ≠ 0 then
      (h.sys.driverLifecycleRemove
        (h.sys.device device).boundDriver device force ops).1 else h.sys := ⟨_, rfl⟩
  have hframe : u.links = h.sys.links ∧ u.deviceCount = h.sys.deviceCount ∧
      ∀ d, (u.device d).hotplugCapable = (h.sys.device d).hotplugCapable := by
    rw [hu]
    split
    · exact remove_frame _ _ _ _ _
    · exact ⟨rfl, rfl, fun _ => rfl⟩
  rw [← hu]
  obtain ⟨hlinks, hcount, hcapable⟩ := hframe
  obtain ⟨hprev, hnext, hlists⟩ := hi.lists.listDel devices_mem hsplit
  rw [← hlinks] at hprev hnext hlists
  have hdel : u.listDel (.device device) = some
      { u with links := u.links.listDel .null (.device device) } :=
    if_neg (not_or.mpr ⟨hprev, hnext⟩)
  have hplain : (u.device device).hotplugCapable = false :=
      (hcapable device).trans (hi.capable device hadded)
  rw [hdel]
  simp only [Option.bind_eq_bind, Option.bind_some]
  rw [hplain]
  refine ⟨_, _, rfl, _, ⟨hlists, fun d => ?_, ?_, fun d => ?_, fun d hd => ?_, ?_⟩⟩
  · rw [Function.update_self]
    dsimp only
    by_cases hd : d = device
    · rw [hd, Function.update_self]
      exact iff_of_false hnot (by simp)
    · rw [Function.update_of_ne hd, ← hi.devices, hsplit]
      simp [hd]
  · rw [Function.update_of_ne Node.noConfusion]
    exact hi.hotplug
  · dsimp only
    by_cases hd : d = device
    · rw [hd, Function.update_self]
      simp
    · rw [Function.update_of_ne hd]
      exact hi.plain d
  · dsimp only at hd ⊢
    by_cases hdd : d = device
    · rw [hdd, Function.update_self] at hd
      cases hd
    · rw [Function.update_of_ne hdd] at hd
      exact (hcapable d).trans (hi.capable d hd)
  · have hlength : (r .devices).length = (xs ++ ys).length + 1 := by
      rw [hsplit, List.length_append, List.length_append, List.length_cons, Nat.add_assoc]
    rw [Function.update_self]
    show u.deviceCount - 1 = _
    rw [hcount, hi.count, hlength, BitVec.ofNat_add]
    exact BitVec.add_sub_cancel _ _

theorem Inv.setErrorCount (hi : h.Inv r) (device : ℕ) (n : ℤ) :
    Inv ⟨h.sys.setDevice device { h.sys.device device with errorCount := n }, h.added⟩ r := by
  refine hi.keep rfl (fun d => ?_) rfl
  show (Function.update h.sys.device device _ d).hotplugCapable = _
  by_cases hd : d = device
  · rw [hd, Function.update_self]
  · rw [Function.update_of_ne hd]

theorem Inv.recover (hi : h.Inv r) (driver device : ℕ) (ops : DriverOps) :
    Inv ⟨(h.sys.driverLifecycleErrorRecover driver device ops).1, h.added⟩ r := by
  unfold LifecycleCtx.driverLifecycleErrorRecover
  by_cases h0 : driver = 0
  · rw [if_pos h0]
    exact hi
  rw [if_neg h0]
  by_cases hok : ops.recover = 0 ∧ device ≠ 0
  · rw [if_pos hok]
    exact hi.setErrorCount device 0
  · rw [if_neg hok]
    exact hi

theorem Inv.addError (hi : h.Inv r) (hfree : h.sys.links.next (.device device) = .null) :
    ∃ t, h.sys.listAddTail (.device device) .errorDevices = some t ∧ ∃ r', Inv ⟨t, h.added⟩ r' := by
  obtain ⟨hprev, hlists⟩ := hi.lists.listAddTail errorDevices_mem hfree
  have hdevices : Function.update r .errorDevices (r .errorDevices ++ [device]) .devices = r .devices :=
    Function.update_of_ne Node.noConfusion ..
  refine ⟨_, if_neg hprev, _, hlists, fun d => ?_, ?_, hi.plain, hi.capable, ?_⟩
  · rw [hdevices]
    exact hi.devices d
  · rw [Function.update_of_ne Node.noConfusion]
    exact hi.hotplug
  · rw [hdevices]
    exact hi.count

theorem Inv.countError (hi : h.Inv r) (hs : device = 0 ∨ (h.sys.device device).errorCount ≠ 0 ∨
    h.sys.links.next (.device device) = .null) :
    ∃ t, h.sys.countError device = some t ∧ ∃ r', Inv ⟨t, h.added⟩ r' := by
  unfold LifecycleCtx.countError
  by_cases h0 : device = 0
  · rw [if_pos h0]
    exact ⟨_, rfl, r, hi⟩
  rw [if_neg h0]
  have hset := hi.setErrorCount device ((h.sys.device device).errorCount + 1)
  have hcount : ((h.sys.setDevice device { h.sys.device device with
      errorCount := (h.sys.device device).errorCount + 1 }).device device).errorCount =
      (h.sys.device device).errorCount + 1 := by
    show (Function.update h.sys.device device _ device).errorCount = _
    rw [Function.update_self]
  dsimp only
  rw [hcount]
  by_cases hfirst : (h.sys.device device).errorCount + 1 = 1
  · rw [if_pos hfirst]
    have hzero : (h.sys.device device).errorCount = 0 := by omega
    exact hset.addError ((hs.resolve_left h0).resolve_left (not_not.mpr hzero))
  · rw [if_neg hfirst]
    exact ⟨_, rfl, r, hset⟩

theorem Inv.errorReport (hi : h.Inv r) (hs : h.Sound (.errorReport driver device ops)) :
    ∃ t ret, h.sys.driverLifecycleErrorReport driver device ops = some (t, ret) ∧
      ∃ r', Inv ⟨t, h.after (.errorReport driver device ops)⟩ r' := by
  unfold LifecycleCtx.driverLifecycleErrorReport after
  by_cases h0 : driver = 0
  · rw [if_pos h0]
    exact ⟨_, _, rfl, r, hi⟩
  rw [if_neg h0]
  obtain ⟨u, hu, r', hui⟩ := hi.countError (hs.resolve_left h0)
  have hlast : Inv ⟨{ u with errorCount := u.errorCount + 1 }, h.added⟩ r' :=
    hui.keep rfl (fun _ => rfl) rfl
  rw [hu]
  refine ⟨_, _, rfl, r', ?_⟩
  dsimp only
  split
  · exact hlast.recover driver device ops
  · exact hlast

theorem Inv.call (hi : h.Inv r) {c : DeviceCall} (hs : h.Sound c) :
    ∃ t ret, h.sys.deviceCall c = some (t, ret) ∧ ∃ r', Inv ⟨t, h.after c⟩ r' := by
  cases c with
  | add device hotplug => exact hi.add hs
  | remove device force ops => exact hi.remove hs
  | errorReport driver device ops => exact hi.errorReport hs

def Step (h : DeviceHistory) (c : DeviceCall) (h' : DeviceHistory) : Prop :=
  h.Sound c ∧ h'.added = h.after c ∧ ∃ ret, h.sys.deviceCall c = some (h'.sys, ret)

theorem step_inv (h : DeviceHistory) (c : DeviceCall) (h' : DeviceHistory) (hi : ∃ r, h.Inv r)
    (hstep : Step h c h') : ∃ r, h'.Inv r := by
  obtain ⟨r, hi⟩ := hi
  obtain ⟨hs, hadded, ret, hcall⟩ := hstep
  obtain ⟨t, ret', hcall', r', ht⟩ := hi.call hs
  obtain ⟨rfl, -⟩ := pair_inj (hcall'.symm.trans hcall)
  rw [← hadded] at ht
  exact ⟨r', ht⟩

structure Start (h : DeviceHistory) : Prop where
  links : h.sys.links = emptyLinks
  count : h.sys.deviceCount = 0
  added : h.added = fun _ => none

theorem Start.inv (hstart : Start h) : h.Inv fun _ => [] := by
  refine ⟨?_, fun d => ?_, rfl, fun d => ?_, fun d hd => ?_, hstart.count⟩
  · rw [hstart.links]
    refine .of_rings device_kind (fun x hx => ?_) (fun d _ => ?_) fun _ _ _ _ _ hd => ?_
    · rcases hx with rfl | rfl | rfl <;> exact .empty (by decide) (by decide)
    · simp [emptyLinks, ListHeads.initListHead_next]
    · exact absurd hd List.not_mem_nil
  · rw [hstart.added]
    exact iff_of_false List.not_mem_nil (by simp)
  · rw [hstart.added]
    simp
  · rw [hstart.added] at hd
    cases hd

/-- While every call is one of those the lists are for, no call fails, and the lists are those of the
devices that were added. -/
theorem device_lists {h₀ : DeviceHistory} {calls : List DeviceCall} (hstart : Start h₀)
    (hrun : Exec Step h₀ calls h) :
    h.ListsOk ∧ ∀ c, h.Sound c →
      ∃ t ret, h.sys.deviceCall c = some (t, ret) ∧ ListsOk ⟨t, h.after c⟩ := by
  obtain ⟨r, hi⟩ := hrun.invariant step_inv ⟨_, hstart.inv⟩
  refine ⟨hi.ok, fun c hs => ?_⟩
  obtain ⟨t, ret, hcall, r', ht⟩ := hi.call hs
  exact ⟨t, ret, hcall, ht.ok⟩

instance (h : DeviceHistory) : (c : DeviceCall) → Decidable (h.Sound c)
  | .add .. => inferInstanceAs (Decidable (_ ∨ _ ∧ _))
  | .remove .. => inferInstanceAs (Decidable (_ ∨ _))
  | .errorReport .. => inferInstanceAs (Decidable (_ ∨ _ ∨ _ ∨ _))

/-- Three devices are added, one of them is removed, and another one has two errors. -/
def fourDevices : List DeviceCall :=
  [.add 1 false, .add 2 false, .add 3 false, .remove 2 false {}, .errorReport 8 4 { recover := -5 },
    .errorReport 8 4 {}]

theorem device_lists_four : ∃ h : DeviceHistory, Exec Step ⟨lifecycleInit, fun _ => none⟩ fourDevices h ∧
    h.ListsOk ∧ h.sys.deviceCount = 2 ∧ h.added 2 = none ∧ h.added 3 = some false := by
  have hrun : Exec Step ⟨lifecycleInit, fun _ => none⟩ fourDevices ⟨_, _⟩ :=
    .cons (u := ⟨_, _⟩) ⟨by decide, by rfl, _, rfl⟩ <| .cons (u := ⟨_, _⟩) ⟨by decide, by rfl, _, rfl⟩ <|
      .cons (u := ⟨_, _⟩) ⟨by decide, by rfl, _, rfl⟩ <| .cons (u := ⟨_, _⟩) ⟨by decide, by rfl, _, rfl⟩ <|
        .cons (u := ⟨_, _⟩) ⟨by decide, by rfl, _, rfl⟩ <|
          .cons (u := ⟨_, _⟩) ⟨by decide, by rfl, _, rfl⟩ (.nil _)
  exact ⟨_, hrun, (device_lists ⟨rfl, rfl, rfl⟩ hrun).1, by decide, by decide, by decide⟩

theorem not_circular_devices {m : ListHeads Node} {d : ℕ} {x : Node}
    (hfirst : m.next .devices = .device d)
    (hsecond : m.next (.device d) = x) (hx : x ∈ deviceHeads) (hne : x ≠ .devices) (l : List ℕ) :
    ¬ m.Circular .devices (l.map .device) := by
  intro hc
  have hpath := hc.next
  cases l with
  | nil => exact Node.noConfusion (hfirst.symm.trans hpath)
  | cons a l =>
    obtain ⟨ha, hpath⟩ := hpath
    rw [← hfirst.symm.trans ha] at hpath
    cases l with
    | nil => exact hne (hsecond.symm.trans hpath)
    | cons b l => exact device_kind.not_head b ((hsecond.symm.trans hpath.1) ▸ hx)

/-- The one node of a device is linked into a second list, when it is added with hotplug, and when its
first error is reported: the list of the devices does not lead back to its head. Removing a device that
was added with hotplug goes through NULL. -/
theorem device_lists_break :
    (∃ t, lifecycleInit.deviceCall (.add 1 true) = some (t, 0) ∧
        (∀ l : List ℕ, ¬ t.links.Circular .devices (l.map .device)) ∧
        t.deviceCall (.remove 1 false {}) = none) ∧
      ∃ t, [.add 1 false, .errorReport 1 1 {}].foldlM
          (fun s (c : DeviceCall) => (s.deviceCall c).map Prod.fst) lifecycleInit = some t ∧
        ∀ l : List ℕ, ¬ t.links.Circular .devices (l.map .device) := by
  refine ⟨⟨_, rfl, ?_, rfl⟩, _, rfl, ?_⟩
  · exact not_circular_devices (d := 1) (x := .hotplugDevices) (by decide) (by decide)
      hotplugDevices_mem Node.noConfusion
  · exact not_circular_devices (d := 1) (x := .errorDevices) (by decide) (by decide)
      errorDevices_mem Node.noConfusion

end DeviceHistory

end GcAos.Drivers
