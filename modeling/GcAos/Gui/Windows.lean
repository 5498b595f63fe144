import GcAos.Gui.Surfaces

/-! The windows of the GUI server and their events, `kernel/core/gui_server.c`. -/

namespace GcAos.Gui
open Lib

inductive GuiEventType
  | keyDown | keyUp | mouseDown | mouseUp | mouseMove | mouseWheel | windowClose | windowResize
  | windowMove | windowFocus

inductive GuiEventData
  | key (keycode scancode : BitVec 32) (shift ctrl alt : Bool)
  | mouse (x y buttons dx dy wheel : BitVec 32)
  | resize (width height edge : BitVec 32)
  | move (x y : BitVec 32)

structure GuiEvent where
  type : GuiEventType
  windowId : BitVec 32
  timestamp : BitVec 64
  data : GuiEventData

/-- `struct gui_window`: what the calls read. The queue is that of the addresses of the events. -/
structure GuiWindow where
  id : BitVec 32
  ownerPid : BitVec 32
  x : BitVec 32
  y : BitVec 32
  width : BitVec 32
  height : BitVec 32
  visible : Bool
  eventQueue : List ℕ

/-- `struct process_windows` with the addresses of the windows. -/
structure ProcessWindows where
  pid : BitVec 32
  windows : List ℕ

/-- The part of `gui_server` that is about windows, with the windows, the mappings and the events that
are allocated. -/
structure Windows where
  initialized : Bool
  windows : List ℕ := []
  nextWindowId : BitVec 32 := 1
  windowCount : BitVec 32 := 0
  processWindows : List ℕ := []
  eventCount : BitVec 32 := 0
  window : ℕ → Option GuiWindow := fun _ => none
  process : ℕ → Option ProcessWindows := fun _ => none
  eventCache : List ℕ := []
  event : ℕ → Option GuiEvent := fun _ => none

namespace Windows

variable (s : Windows)

def setWindow (a : ℕ) (win : Option GuiWindow) : Windows :=
  { s with window := Function.update s.window a win }

def setProcess (p : ℕ) (proc : Option ProcessWindows) : Windows :=
  { s with process := Function.update s.process p proc }

def findWindow (id : BitVec 32) : Option (Option (ℕ × GuiWindow)) :=
  findEntry s.window (fun win => win.id = id) s.windows

def findProcess (pid : BitVec 32) : Option (Option (ℕ × ProcessWindows)) :=
  findEntry s.process (fun proc => proc.pid = pid) s.processWindows

def addWindow (a : ℕ) (win : GuiWindow) : Windows :=
  let s := { s.setWindow a (some win) with nextWindowId := s.nextWindowId + 1 }
  { s with windows := a :: s.windows, windowCount := s.windowCount + 1 }

/-- `list_add` to the windows of a mapping. -/
def addOwned (p : ℕ) (proc : ProcessWindows) (a : ℕ) : Windows :=
  s.setProcess p (some { proc with windows := a :: proc.windows })

/-- `mem` is what `kmalloc` returns for the window and `procMem` what it returns for a mapping. -/
def guiServerCreateWindow (ownerPid : BitVec 32) (title : Option String) (x y width height : BitVec 32)
    (mem procMem : Option ℕ) : Option (Windows × ℤ) :=
  if s.initialized = false ∨ title = none then some (s, -einval)
  else
    match mem with
    | none => some (s, -enomem)
    | some a =>
      let win : GuiWindow := ⟨s.nextWindowId, ownerPid, x, y, width, height, true, []⟩
      let s := s.addWindow a win
      match s.findProcess ownerPid with
      | none => none
      | some (some (p, proc)) => some (s.addOwned p proc a, win.id.toInt)
      | some none =>
        match procMem with
        | none => some (s, win.id.toInt)
        | some p =>
          let s := { s with processWindows := p :: s.processWindows }
          some (s.addOwned p ⟨ownerPid, []⟩ a, win.id.toInt)

/-- `list_del` of the node for the list of the owner. A window that is on none has a zeroed node,
and the kernel follows its null pointers. -/
def delOwned (a : ℕ) : Option Windows :=
  match findEntry s.process (fun proc => a ∈ proc.windows) s.processWindows with
  | some (some (p, proc)) => some (s.setProcess p (some { proc with windows := proc.windows.erase a }))
  | _ => none

/-- `kmem_cache_free` of the events of a queue, one after the other. -/
def freeEvents (s : Windows) : List ℕ → Option Windows
  | [] => some s
  | e :: rest =>
    if e ∈ s.eventCache then
      freeEvents
        { s with eventCache := s.eventCache.erase e, event := Function.update s.event e none } rest
    else none

def guiServerDestroyWindow (windowId : BitVec 32) : Option (Windows × ℤ) :=
  if s.initialized = false then some (s, -einval)
  else
    match s.findWindow windowId with
    | none => none
    | some none => some (s, -enoent)
    | some (some (a, win)) => do
      let s := { s with windows := s.windows.erase a, windowCount := s.windowCount - 1 }
      let s ← s.delOwned a
      let s ← s.freeEvents win.eventQueue
      return (s.setWindow a none, 0)

/-- `mem` is what `kmem_cache_alloc` returns and `now` is `arch_timer_get_ms`. -/
def guiServerPostEvent (windowId : BitVec 32) (event : Option GuiEvent) (mem : Option ℕ)
    (now : BitVec 64) :
    Option (Windows × ℤ) :=
  match event with
  | none => some (s, -einval)
  | some event =>
    if s.initialized = false then some (s, -einval)
    else
      match s.findWindow windowId with
      | none => none
      | some none => some (s, -enoent)
      | some (some (a, win)) =>
        match mem with
        | none => some (s, -enomem)
        | some e =>
          let newEvent := { event with windowId := windowId, timestamp := now }
          let s := { s with eventCache := e :: s.eventCache
                            event := Function.update s.event e (some newEvent) }
          let s := s.setWindow a (some { win with eventQueue := win.eventQueue ++ [e] })
          some ({ s with eventCount := s.eventCount + 1 }, 0)

/-- The loop of `gui_server_process_exit`, through the windows of the mapping that it empties. -/
def exitWindows (s : Windows) : List ℕ → Option Windows
  | [] => some s
  | a :: rest =>
    if a ∈ s.windows then
      let s := { s with windows := s.windows.erase a, windowCount := s.windowCount - 1 }
      exitWindows (s.setWindow a none) rest
    else none

def guiServerProcessExit (pid : BitVec 32) : Option Windows :=
  if s.initialized = false then some s
  else
    match s.findProcess pid with
    | none => none
    | some none => some s
    | some (some (p, proc)) => do
      let s ← s.exitWindows proc.windows
      return { s with processWindows := s.processWindows.erase p }.setProcess p none

/-! What the lists hold. -/

def ownedBy (p : ℕ) : List ℕ :=
  match s.process p with
  | none => []
  | some proc => proc.windows

def queueOf (a : ℕ) : List ℕ :=
  match s.window a with
  | none => []
  | some win => win.eventQueue

end Windows

inductive WindowCall
  | create (ownerPid : BitVec 32) (title : Option String) (x y width height : BitVec 32)
      (mem procMem : Option ℕ)
  | destroy (windowId : BitVec 32)
  | post (windowId : BitVec 32) (event : Option GuiEvent) (mem : Option ℕ) (now : BitVec 64)
  | exit (pid : BitVec 32)

namespace WindowCall

def step (s : Windows) : WindowCall → Option Windows
  | create ownerPid title x y width height mem procMem =>
    (s.guiServerCreateWindow ownerPid title x y width height mem procMem).map Prod.fst
  | destroy id => (s.guiServerDestroyWindow id).map Prod.fst
  | post id event mem now => (s.guiServerPostEvent id event mem now).map Prod.fst
  | exit pid => s.guiServerProcessExit pid

def Allowed (s : Windows) : WindowCall → Prop
  | create _ _ _ _ _ _ mem procMem => (∀ a ∈ mem, s.window a = none) ∧ ∀ p ∈ procMem, s.process p = none
  | post _ _ mem _ => ∀ e ∈ mem, e ∉ s.eventCache
  | _ => True

/-- A window that is created finds the mapping of its process or memory for one, and is not one too many
for an `int`. A process that exits has no window with events. -/
def Safe (s : Windows) : WindowCall → Prop
  | create ownerPid title _ _ _ _ mem procMem => s.initialized = true → title ≠ none → mem ≠ none →
      (procMem = none → s.findProcess ownerPid ≠ some none) ∧ s.windowCount.toInt < 2 ^ 31 - 1
  | exit pid => ∀ p proc, s.findProcess pid = some (some (p, proc)) → ∀ a ∈ proc.windows,
      s.queueOf a = []
  | _ => True

end WindowCall

end GcAos.Gui
