import GcAos.Lib.Exec
import Mathlib.Data.List.Nodup
import Mathlib.Tactic

/-! References to drivers: `driver_get` and `driver_put` of `kernel/drivers/lifecycle.c`. -/

namespace GcAos.Drivers
open Lib

/-- `struct driver_reference`, without the list node. -/
structure DriverReference where
  holder : ℕ
  type : String
  file : String
  line : ℤ
  timestamp : ℕ

/-- `struct driver_refcount`; the list is that of the addresses of the references. -/
structure DriverRefcount where
  refcount : BitVec 32 := 0
  refList : List ℕ := []
  moduleRefs : BitVec 32 := 0
  deviceRefs : BitVec 32 := 0
  clientRefs : BitVec 32 := 0
  sysfsRefs : BitVec 32 := 0
  maxRefs : ℤ
  refLimitEnabled : Bool

/-- The drivers, of which 0 is NULL, the references that are allocated, and the clock. -/
structure Lifecycle where
  driver : ℕ → DriverRefcount
  refs : ℕ → Option DriverReference
  clock : ℕ

def enoent : ℤ := 2
def enomem : ℤ := 12
def einval : ℤ := 22
def eoverflow : ℤ := 75

namespace DriverRefcount

/-- The counter of the type goes up by `d`; other types have none. -/
def addType (q : DriverRefcount) (type : String) (d : BitVec 32) : DriverRefcount :=
  if type = "module" then { q with moduleRefs := q.moduleRefs + d }
  else if type = "device" then { q with deviceRefs := q.deviceRefs + d }
  else if type = "client" then { q with clientRefs := q.clientRefs + d }
  else if type = "sysfs" then { q with sysfsRefs := q.sysfsRefs + d }
  else q

def OverLimit (q : DriverRefcount) : Prop := q.refLimitEnabled = true ∧ q.maxRefs < q.refcount.toInt

instance (q : DriverRefcount) : Decidable q.OverLimit := inferInstanceAs (Decidable (_ ∧ _))

end DriverRefcount

namespace Lifecycle

variable (s : Lifecycle)

def setDriver (driver : ℕ) (q : DriverRefcount) : Lifecycle :=
  { s with driver := Function.update s.driver driver q }

def setRef (ref : ℕ) (r : Option DriverReference) : Lifecycle :=
  { s with refs := Function.update s.refs ref r }

end Lifecycle

/-- `mem` is what `kmalloc` returns, if anything, and `holder` is `current`. -/
def driverGet (s : Lifecycle) (driver : ℕ) (type : Option String) (file : String) (line : ℤ) (holder : ℕ)
    (mem : Option ℕ) : Lifecycle × ℤ :=
  match type with
  | none => (s, -einval)
  | some type =>
    if driver = 0 then (s, -einval)
    else
      match mem with
      | none => (s, -enomem)
      | some ref =>
        let s := { s with clock := s.clock + 1 }
        let s := s.setRef ref (some ⟨holder, type, file, line, s.clock⟩)
        let q := s.driver driver
        let q := { q with refcount := q.refcount + 1, refList := q.refList ++ [ref] }
        let q := q.addType type 1
        let s := s.setDriver driver q
        if q.OverLimit then (s.setRef ref none, -eoverflow) else (s, 0)

/-- The loop of `driver_put`: the first reference of the type, and from the file when one is named.
`none` is for a reference that is no longer allocated. -/
def findRef (refs : ℕ → Option DriverReference) (type : String) (file : Option String) :
    List ℕ → Option (Option ℕ)
  | [] => some none
  | ref :: rest =>
    match refs ref with
    | none => none
    | some r =>
      if r.type = type ∧ (file = none ∨ file = some r.file) then some (some ref)
      else findRef refs type file rest

def driverPut (s : Lifecycle) (driver : ℕ) (type file : Option String) : Option (Lifecycle × ℤ) :=
  match type with
  | none => some (s, -einval)
  | some type =>
    if driver = 0 then some (s, -einval)
    else
      match findRef s.refs type file (s.driver driver).refList with
      | none => none
      | some none => some (s, -enoent)
      | some (some ref) =>
        let q := s.driver driver
        let q := { q with refList := q.refList.erase ref, refcount := q.refcount - 1 }
        some ((s.setRef ref none).setDriver driver (q.addType type (-1)), 0)

/-! What the counters are to count. -/

inductive RefKind
  | module | device | client | sysfs

def RefKind.name : RefKind → String
  | module => "module"
  | device => "device"
  | client => "client"
  | sysfs => "sysfs"

def DriverRefcount.counter (q : DriverRefcount) : RefKind → BitVec 32
  | .module => q.moduleRefs
  | .device => q.deviceRefs
  | .client => q.clientRefs
  | .sysfs => q.sysfsRefs

def HasType (refs : ℕ → Option DriverReference) (type : String) (ref : ℕ) : Bool :=
  match refs ref with
  | none => false
  | some r => r.type = type

namespace DriverRefcount

variable {q : DriverRefcount} {type : String} {d : BitVec 32}

theorem counter_addType (k : RefKind) :
    (q.addType type d).counter k = q.counter k + if type = k.name then d else 0 := by
  unfold addType
  cases k <;> dsimp only [RefKind.name] <;> split_ifs <;> simp_all [counter]

@[simp] theorem addType_refcount : (q.addType type d).refcount = q.refcount := by
  unfold addType
  split_ifs <;> rfl

@[simp] theorem addType_refList : (q.addType type d).refList = q.refList := by
  unfold addType
  split_ifs <;> rfl

@[simp] theorem addType_maxRefs : (q.addType type d).maxRefs = q.maxRefs := by
  unfold addType
  split_ifs <;> rfl

@[simp] theorem addType_refLimitEnabled : (q.addType type d).refLimitEnabled = q.refLimitEnabled := by
  unfold addType
  split_ifs <;> rfl

end DriverRefcount

end GcAos.Drivers
