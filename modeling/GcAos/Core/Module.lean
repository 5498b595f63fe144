import GcAos.Lib.Exec
import Mathlib.Data.List.Nodup
import Mathlib.Tactic

/-! Kernel modules, from `kernel/core/module.c`: `module_load`, `module_unload` and `module_find`. The
module lock makes each change of the list one step. -/

namespace GcAos.Modules

def enoent : ℤ := 2
def enomem : ℤ := 12
def ebusy : ℤ := 16
def eexist : ℤ := 17
def einval : ℤ := 22

def moduleFlagLoaded : BitVec 32 := 1
def moduleFlagInitialized : BitVec 32 := 2

/-- A string of C: the bytes before its null byte. -/
abbrev CName := List UInt8

/-- The room of `name` in `struct module`, less the null byte. -/
def nameRoom : ℕ := 64 - 1

/-- `struct module`, without the metadata and the symbols; `addr` is where it lies. -/
structure Module where
  addr : ℕ
  name : CName
  size : BitVec 64
  moduleBase : ℕ
  flags : BitVec 32
  refcount : BitVec 32
  deriving DecidableEq

/-- The list from `module_list_head` on, and the two totals. -/
structure ModuleSystem where
  modules : List Module := []
  moduleCount : BitVec 32 := 0
  totalModuleMemory : BitVec 64 := 0
  deriving DecidableEq

/-- The loop of `module_find`: the first module of the name, which gets one more reference. -/
def findRef (name : CName) : List Module → Option ℕ × List Module
  | [] => (none, [])
  | m :: rest =>
    if m.name = name then (some m.addr, { m with refcount := m.refcount + 1 } :: rest)
    else ((findRef name rest).1, m :: (findRef name rest).2)

def moduleFind (s : ModuleSystem) (name : Option CName) : ModuleSystem × Option ℕ :=
  match name with
  | none => (s, none)
  | some name => ({ s with modules := (findRef name s.modules).2 }, (findRef name s.modules).1)

/-- A call of `module_load` and what it meets: `mod` and `base` are what `kmalloc` and `vmm_alloc`
return, 0 for NULL. The parser does not fail and finds no functions yet (`moduleParseElf`); any
parser may return `parseRet` and find a `module_init` that returns `initRet`. -/
structure LoadCall where
  name : Option CName
  hasData : Bool
  size : BitVec 64
  mod : ℕ
  base : ℕ
  parseRet : ℤ
  initRet : Option ℤ
  deriving DecidableEq

/-- What the parser returns, and the `module_init` it finds. -/
def moduleParseElf : ℤ × Option ℤ := (0, none)

def LoadCall.module (c : LoadCall) (name : CName) : Module where
  addr := c.mod
  name := name.take nameRoom
  size := c.size
  moduleBase := c.base
  flags := moduleFlagLoaded
  refcount := 1

namespace ModuleSystem

def push (s : ModuleSystem) (m : Module) : ModuleSystem where
  modules := m :: s.modules
  moduleCount := s.moduleCount + 1
  totalModuleMemory := s.totalModuleMemory + m.size

/-- Taking the module off the list again after its `module_init` has failed. -/
def unlink (s : ModuleSystem) (m : Module) : ModuleSystem where
  modules := s.modules.eraseP fun x => x.addr = m.addr
  moduleCount := s.moduleCount - 1
  totalModuleMemory := s.totalModuleMemory - m.size

/-- `mod->flags |= MODULE_FLAG_INITIALIZED`. -/
def setInitialized (s : ModuleSystem) (mod : ℕ) : ModuleSystem :=
  { s with modules := s.modules.map fun x =>
      if x.addr = mod then { x with flags := x.flags ||| moduleFlagInitialized } else x }

end ModuleSystem

def moduleLoad (s : ModuleSystem) (c : LoadCall) : ModuleSystem × ℤ :=
  match c.name with
  | none => (s, -einval)
  | some name =>
    if c.hasData = false ∨ c.size = 0 then (s, -einval)
    else
      let (s, found) := moduleFind s name
      if found.isSome then (s, -eexist)
      else if c.mod = 0 then (s, -enomem)
      else if c.base = 0 then (s, -enomem)
      else if c.parseRet < 0 then (s, c.parseRet)
      else
        let m := c.module name
        let s := s.push m
        match c.initRet with
        | none => (s, 0)
        | some ret => if ret < 0 then (s.unlink m, ret) else (s.setInitialized m.addr, 0)

/-- The exit function of the module, which returns nothing, is left out. -/
def moduleUnload (s : ModuleSystem) (name : Option CName) : ModuleSystem × ℤ :=
  match name with
  | none => (s, -einval)
  | some name =>
    match s.modules.find? fun m => m.name = name with
    | none => (s, -enoent)
    | some m =>
      if 1 < m.refcount.toInt then (s, -ebusy)
      else
        ({ modules := s.modules.eraseP fun m => m.name = name
           moduleCount := s.moduleCount - 1
           totalModuleMemory := s.totalModuleMemory - m.size }, 0)

/-! ## Histories -/

/-- The modules, and how often each name was found for someone since its module was loaded. -/
structure ModuleHistory where
  sys : ModuleSystem := {}
  users : CName → ℕ := fun _ => 0

inductive ModuleCall
  | load (c : LoadCall)
  | unload (name : Option CName)
  | find (name : Option CName)

def ModuleHistory.step (h : ModuleHistory) : ModuleCall → ModuleHistory
  | .load c =>
    { sys := (moduleLoad h.sys c).1
      users :=
        if (moduleLoad h.sys c).2 = 0 then Function.update h.users ((c.name.getD []).take nameRoom) 0
        else h.users }
  | .unload name => { h with sys := (moduleUnload h.sys name).1 }
  | .find name =>
    { sys := (moduleFind h.sys name).1
      users :=
        if (moduleFind h.sys name).2.isSome then
          Function.update h.users (name.getD []) (h.users (name.getD []) + 1)
        else h.users }

/-- What can go wrong in a load after its name is accepted. -/
def LoadCall.Fails (c : LoadCall) : Prop :=
  c.mod = 0 ∨ c.base = 0 ∨ c.parseRet < 0 ∨ ∃ ret ∈ c.initRet, ret < 0

/-- The loads that go well: the name is not on the list, and neither is what is stored of it, unless the
load fails further on. -/
def LoadCall.Fresh (s : ModuleSystem) (c : LoadCall) : Prop :=
  ∀ name ∈ c.name, c.hasData = true → c.size ≠ 0 →
    name ∉ s.modules.map Module.name ∧
      (name.take nameRoom ∈ s.modules.map Module.name → c.Fails)

def ModuleCall.Fresh (s : ModuleSystem) : ModuleCall → Prop
  | .load c => c.Fresh s
  | _ => True

end GcAos.Modules
