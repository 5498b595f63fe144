import GcAos.Lib.Entries
import GcAos.Lib.Exec
import Mathlib.Data.List.Nodup
import Mathlib.Tactic

/-! The surfaces of the GUI server, `kernel/core/gui_server.c`. -/

namespace GcAos.Gui
open Lib

def enoent : ℤ := 2
def enomem : ℤ := 12
def ebusy : ℤ := 16
def einval : ℤ := 22
def eperm : ℤ := 1

/-- `struct gui_surface`, without the list node. -/
structure GuiSurface where
  id : BitVec 32
  width : BitVec 32
  height : BitVec 32
  pitch : BitVec 32
  data : ℕ
  size : ℕ
  shared : Bool
  ownerPid : ℤ
  refcount : BitVec 32

/-- The part of `gui_server` that is about surfaces, with the surfaces and the pixels that are
allocated. -/
structure Surfaces where
  initialized : Bool
  surfaces : List ℕ := []
  nextSurfaceId : BitVec 32 := 1
  surfaceCount : BitVec 32 := 0
  surface : ℕ → Option GuiSurface := fun _ => none
  pixels : ℕ → Option ℕ := fun _ => none

/-- `ALIGN (x, 64)` of a `uint32_t`. -/
def align64 (x : BitVec 32) : BitVec 32 := (x + 64 - 1) &&& ~~~(64 - 1)

namespace Surfaces

variable (s : Surfaces)

def setSurface (a : ℕ) (surf : Option GuiSurface) : Surfaces :=
  { s with surface := Function.update s.surface a surf }

def setPixels (a : ℕ) (size : Option ℕ) : Surfaces :=
  { s with pixels := Function.update s.pixels a size }

/-- `list_for_each_entry` up to the surface with the identifier. -/
def find (id : BitVec 32) : Option (Option (ℕ × GuiSurface)) :=
  findEntry s.surface (fun surf => surf.id = id) s.surfaces

/-- `pid` is that of `current`, `mem` is what `kmalloc` returns and `data` what `vmm_alloc` does. -/
def guiServerCreateSurface (pid : ℤ) (width height : BitVec 32) (shared : Bool) (mem data : Option ℕ) :
    Surfaces × ℤ :=
  if s.initialized = false ∨ width = 0 ∨ height = 0 then (s, -einval)
  else
    match mem with
    | none => (s, -enomem)
    | some a =>
      let pitch := align64 (width * 4)
      let size := (pitch * height).toNat
      match data with
      | none => (s, -enomem)
      | some data =>
        let surf : GuiSurface := ⟨s.nextSurfaceId, width, height, pitch, data, size, shared, pid, 1⟩
        let s := (s.setPixels data (some size)).setSurface a (some surf)
        let s := { s with nextSurfaceId := s.nextSurfaceId + 1 }
        ({ s with surfaces := a :: s.surfaces, surfaceCount := s.surfaceCount + 1 }, surf.id.toInt)

def guiServerDestroySurface (surfaceId : BitVec 32) : Option (Surfaces × ℤ) :=
  if s.initialized = false then some (s, -einval)
  else
    match s.find surfaceId with
    | none => none
    | some none => some (s, -enoent)
    | some (some (a, surf)) =>
      if 1 < surf.refcount.toInt then some (s, -ebusy)
      else
        let s := { s with surfaces := s.surfaces.erase a, surfaceCount := s.surfaceCount - 1 }
        let s := if surf.data = 0 then s else s.setPixels surf.data none
        some (s.setSurface a none, 0)

/-- `vmm_map_to_userspace` as it stands. -/
def vmmMapToUserspace (_kaddr _size : ℕ) : Option ℕ := none

/-- `addr` says whether the pointer is not NULL, and the third result is what is stored there. `map` is
`vmm_map_to_userspace`. -/
def guiServerMapSurface (map : ℕ → ℕ → Option ℕ) (surfaceId : BitVec 32) (addr : Bool) :
    Option (Surfaces × ℤ × Option ℕ) :=
  if s.initialized = false ∨ addr = false then some (s, -einval, none)
  else
    match s.find surfaceId with
    | none => none
    | some none => some (s, -enoent, none)
    | some (some (a, surf)) =>
      if surf.shared = false then some (s, -eperm, none)
      else
        match map surf.data surf.size with
        | none => some (s, -enomem, none)
        | some userAddr => some (s.setSurface a (some { surf with refcount := surf.refcount + 1 }),
            0, userAddr)

def guiServerUnmapSurface (surfaceId : BitVec 32) : Option (Surfaces × ℤ) :=
  if s.initialized = false then some (s, -einval)
  else
    match s.find surfaceId with
    | none => none
    | some none => some (s, -enoent)
    | some (some (a, surf)) => some (s.setSurface a
        (some { surf with refcount := surf.refcount - 1 }), 0)

end Surfaces

/-! The clients of the surfaces. -/

/-- How many successful maps of each surface have not been unmapped yet. -/
structure Clients where
  server : Surfaces
  maps : ℕ → ℕ := fun _ => 0

/-- `map` comes with what `vmm_map_to_userspace` does then. -/
inductive SurfaceCall
  | create (pid : ℤ) (width height : BitVec 32) (shared : Bool) (mem data : Option ℕ)
  | destroy (surfaceId : BitVec 32)
  | map (mapping : ℕ → ℕ → Option ℕ) (surfaceId : BitVec 32) (addr : Bool)
  | unmap (surfaceId : BitVec 32)

namespace Clients

variable (c : Clients)

def surfaceOf (id : BitVec 32) : Option ℕ :=
  ((c.server.find id).bind fun found => found).map Prod.fst

/-- A map of the surface, or `unmap` of it, has succeeded. -/
def count (id : BitVec 32) (f : ℕ → ℕ) : ℕ → ℕ :=
  match c.surfaceOf id with
  | none => c.maps
  | some a => Function.update c.maps a (f (c.maps a))

def step : SurfaceCall → Option Clients
  | .create pid width height shared mem data =>
    some { c with server := (c.server.guiServerCreateSurface pid width height shared mem data).1 }
  | .destroy id => do
    let (server, _) ← c.server.guiServerDestroySurface id
    return { c with server := server }
  | .map mapping id addr => do
    let (server, ret, _) ← c.server.guiServerMapSurface mapping id addr
    return ⟨server, if ret = 0 then c.count id (· + 1) else c.maps⟩
  | .unmap id => do
    let (server, ret) ← c.server.guiServerUnmapSurface id
    return ⟨server, if ret = 0 then c.count id (· - 1) else c.maps⟩

end Clients

namespace SurfaceCall

def Allowed (c : Clients) : SurfaceCall → Prop
  | create _ _ _ _ mem data =>
    (∀ a ∈ mem, c.server.surface a = none) ∧ ∀ p ∈ data, p ≠ 0 ∧ c.server.pixels p = none
  | _ => True

/-- A surface that is unmapped has a map that has not been unmapped, and a map that succeeds is not one too
many for an `int`. -/
def Safe (c : Clients) : SurfaceCall → Prop
  | unmap id => ∀ a ∈ c.surfaceOf id, 0 < c.maps a
  | map mapping id addr => addr = true → ∀ a ∈ c.surfaceOf id, ∀ surf ∈ c.server.surface a, surf.shared = true →
      (mapping surf.data surf.size).isSome → c.maps a + 2 < 2 ^ 31
  | _ => True

end SurfaceCall

end GcAos.Gui
