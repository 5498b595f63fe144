import GcAos.Drivers.Lifecycle
import GcAos.Lib.ListHead

/-! The life cycle of drivers and the lists of devices, from `kernel/drivers/lifecycle.c`. Drivers and
devices are their addresses, of which 0 is NULL. What the operations of a driver return is an argument
of the call that makes them. -/

namespace GcAos.Drivers
open Lib

inductive DriverState
  | uninitialized | loading | loaded | probing | active | suspended | unbinding | unloading | error
  | removed
  deriving DecidableEq

def driverFlagAutoprobe : BitVec 32 := 1 <<< 0
def driverFlagIgnoreErrors : BitVec 32 := 1 <<< 6

def ebusy : ℤ := 16
def eexist : ℤ := 17

/-- The heads of the lists, and the `list` nodes of the drivers and the devices. -/
inductive Node
  | null | drivers | devices | hotplugDevices | errorDevices
  | driver (d : ℕ)
  | device (d : ℕ)
  deriving DecidableEq

/-- What is read again of `device->lifecycle`. -/
structure Device where
  boundDriver : ℕ := 0
  hotplugCapable : Bool := false
  errorCount : ℤ := 0
  deriving DecidableEq

/-- `lifecycle_ctx`, with the memory of the drivers and the devices. -/
structure LifecycleCtx where
  links : ListHeads Node
  driver : ℕ → DriverState
  device : ℕ → Device
  driverCount : BitVec 32 := 0
  deviceCount : BitVec 32 := 0
  activeDrivers : BitVec 32 := 0
  boundDevices : BitVec 32 := 0
  errorCount : BitVec 32 := 0
  errorRecoveryEnabled : Bool := true

/-- What the operations of the driver return, 0 for those it lacks, and the number of references to
it. -/
structure DriverOps where
  load : ℤ := 0
  unload : ℤ := 0
  probe : ℤ := 0
  remove : ℤ := 0
  recover : ℤ := 0
  refcount : ℤ := 0

namespace LifecycleCtx

variable (s : LifecycleCtx)

def setDriver (driver : ℕ) (state : DriverState) : LifecycleCtx :=
  { s with driver := Function.update s.driver driver state }

def setDevice (device : ℕ) (d : Device) : LifecycleCtx :=
  { s with device := Function.update s.device device d }

/-- `none` for an access through NULL. -/
def listAddTail (new head : Node) : Option LifecycleCtx :=
  if s.links.prev head = .null then none else some { s with links := s.links.listAddTail new head }

def listDel (entry : Node) : Option LifecycleCtx :=
  if s.links.prev entry = .null ∨ s.links.next entry = .null then none
  else some { s with links := s.links.listDel .null entry }

/-! ## Drivers -/

def driverLifecycleUnload (driver : ℕ) (force : Bool) (ops : DriverOps) : Option (LifecycleCtx × ℤ) :=
  if driver = 0 then some (s, -einval)
  else if force = false ∧ s.driver driver = .active ∧ 0 < ops.refcount then some (s, -ebusy)
  else
    let s := s.setDriver driver .unloading
    if ops.unload ≠ 0 ∧ force = false then some (s.setDriver driver .error, ops.unload)
    else do
      let s ← s.listDel (.driver driver)
      let s := { s with driverCount := s.driverCount - 1 }
      some (s.setDriver driver .removed, 0)

/-- The probe is made in the same way whether it is asynchronous or not. -/
def driverLifecycleProbe (driver device : ℕ) (ops : DriverOps) : LifecycleCtx × ℤ :=
  if driver = 0 then (s, -einval)
  else if s.driver driver ≠ .loaded then (s, -einval)
  else
    let s := s.setDriver driver .probing
    if ops.probe = 0 then
      let s := s.setDriver driver .active
      let s := { s with activeDrivers := s.activeDrivers + 1 }
      if device ≠ 0 then
        let s := s.setDevice device { s.device device with boundDriver := driver }
        ({ s with boundDevices := s.boundDevices + 1 }, ops.probe)
      else (s, ops.probe)
    else ({ s.setDriver driver .error with errorCount := s.errorCount + 1 }, ops.probe)

def driverLifecycleRemove (driver device : ℕ) (force : Bool) (ops : DriverOps) : LifecycleCtx × ℤ :=
  if driver = 0 then (s, -einval)
  else if s.driver driver ≠ .active ∧ force = false then (s, -einval)
  else
    let s := s.setDriver driver .unbinding
    if ops.remove ≠ 0 ∧ force = false then (s.setDriver driver .error, ops.remove)
    else
      let s :=
        if device ≠ 0 then
          let s := s.setDevice device { s.device device with boundDriver := 0 }
          { s with boundDevices := s.boundDevices - 1 }
        else s
      let s := s.setDriver driver .loaded
      ({ s with activeDrivers := s.activeDrivers - 1 }, ops.remove)

def driverLifecycleLoad (driver : ℕ) (flags : BitVec 32) (ops : DriverOps) :
    Option (LifecycleCtx × ℤ) :=
  if driver = 0 then some (s, -einval)
  else if s.driver driver = .loaded ∨ s.driver driver = .active then some (s, -eexist)
  else do
    let s := s.setDriver driver .loading
    let s ← s.listAddTail (.driver driver) .drivers
    let s := { s with driverCount := s.driverCount + 1 }
    if ops.load ≠ 0 then
      let s := s.setDriver driver .error
      let s ← s.listDel (.driver driver)
      some ({ s with driverCount := s.driverCount - 1 }, ops.load)
    else if flags &&& driverFlagAutoprobe = 0 then some (s.setDriver driver .loaded, 0)
    else
      let (s, ret) := s.driverLifecycleProbe driver 0 ops
      if ret ≠ 0 ∧ flags &&& driverFlagIgnoreErrors = 0 then
        let (s, _) ← s.driverLifecycleUnload driver false ops
        some (s, ret)
      else some (s.setDriver driver .loaded, 0)

/-! ## Devices -/

/-- `driver_lifecycle_hotplug_add` does nothing yet. -/
def deviceLifecycleAdd (device : ℕ) (hotplug : Bool) : Option (LifecycleCtx × ℤ) :=
  if device = 0 then some (s, -einval)
  else do
    let s := s.setDevice device { boundDriver := 0, hotplugCapable := hotplug, errorCount := 0 }
    let s ← s.listAddTail (.device device) .devices
    let s := { s with deviceCount := s.deviceCount + 1 }
    let s ← if hotplug then s.listAddTail (.device device) .hotplugDevices else some s
    some (s, 0)

def deviceLifecycleRemove (device : ℕ) (force : Bool) (ops : DriverOps) : Option (LifecycleCtx × ℤ) :=
  if device = 0 then some (s, -einval)
  else do
    let bound := (s.device device).boundDriver
    let s := if bound ≠ 0 then (s.driverLifecycleRemove bound device force ops).1 else s
    let s ← s.listDel (.device device)
    let s := { s with deviceCount := s.deviceCount - 1 }
    let s ← if (s.device device).hotplugCapable then s.listDel (.device device) else some s
    some (s, 0)

/-! ## Errors -/

def driverLifecycleErrorRecover (driver device : ℕ) (ops : DriverOps) : LifecycleCtx × ℤ :=
  if driver = 0 then (s, -einval)
  else if ops.recover = 0 ∧ device ≠ 0 then
    (s.setDevice device { s.device device with errorCount := 0 }, ops.recover)
  else (s, ops.recover)

def countError (device : ℕ) : Option LifecycleCtx :=
  if device = 0 then some s
  else
    let s := s.setDevice device
      { s.device device with errorCount := (s.device device).errorCount + 1 }
    if (s.device device).errorCount = 1 then s.listAddTail (.device device) .errorDevices else some s

def driverLifecycleErrorReport (driver device : ℕ) (ops : DriverOps) : Option (LifecycleCtx × ℤ) :=
  if driver = 0 then some (s, -einval)
  else do
    let s ← s.countError device
    let s := { s with errorCount := s.errorCount + 1 }
    some (if s.errorRecoveryEnabled then (s.driverLifecycleErrorRecover driver device ops).1 else s, 0)

end LifecycleCtx

/-! ## Calls -/

inductive DriverCall
  | load (driver : ℕ) (flags : BitVec 32) (ops : DriverOps)
  | unload (driver : ℕ) (force : Bool) (ops : DriverOps)
  | probe (driver device : ℕ) (ops : DriverOps)
  | remove (driver device : ℕ) (force : Bool) (ops : DriverOps)

inductive DeviceCall
  | add (device : ℕ) (hotplug : Bool)
  | remove (device : ℕ) (force : Bool) (ops : DriverOps)
  | errorReport (driver device : ℕ) (ops : DriverOps)

def LifecycleCtx.driverCall (s : LifecycleCtx) : DriverCall → Option (LifecycleCtx × ℤ)
  | .load driver flags ops => s.driverLifecycleLoad driver flags ops
  | .unload driver force ops => s.driverLifecycleUnload driver force ops
  | .probe driver device ops => some (s.driverLifecycleProbe driver device ops)
  | .remove driver device force ops => some (s.driverLifecycleRemove driver device force ops)

def LifecycleCtx.deviceCall (s : LifecycleCtx) : DeviceCall → Option (LifecycleCtx × ℤ)
  | .add device hotplug => s.deviceLifecycleAdd device hotplug
  | .remove device force ops => s.deviceLifecycleRemove device force ops
  | .errorReport driver device ops => s.driverLifecycleErrorReport driver device ops

def emptyLinks : ListHeads Node :=
  ((((⟨fun _ => .null, fun _ => .null⟩ : ListHeads Node).initListHead .drivers).initListHead
    .devices).initListHead .hotplugDevices).initListHead .errorDevices

def lifecycleInit : LifecycleCtx :=
  { links := emptyLinks, driver := fun _ => .uninitialized, device := fun _ => {} }

end GcAos.Drivers
