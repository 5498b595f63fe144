import GcAos.Lib.Exec
import GcAos.Lib.ListHead

/-! The windows of `gui/window_manager.c`. A window has one `list` node, for `all_windows` and for
`visible_windows`. A call is split where it has released the lock and goes on with another function. -/

namespace GcAos.Gui.Manager
open Lib

def maxWindows : ℕ := 64
def minWindowWidth : ℤ := 100
def minWindowHeight : ℤ := 50
def maxWindowWidth : ℤ := 4096
def maxWindowHeight : ℤ := 2160

inductive WindowState
  | normal | minimized | maximized | hidden | destroyed
  deriving DecidableEq

def windowFlagMinimizable : BitVec 32 := 1 <<< 3
def windowFlagMaximizable : BitVec 32 := 1 <<< 4

structure Window where
  id : ℕ := 0
  x : ℤ := 0
  y : ℤ := 0
  width : ℤ := 0
  height : ℤ := 0
  zIndex : ℤ := 0
  state : WindowState := .normal
  flags : BitVec 32 := 0
  focused : Bool := false
  visible : Bool := false
  prevX : ℤ := 0
  prevY : ℤ := 0
  prevWidth : ℤ := 0
  prevHeight : ℤ := 0

inductive Node
  | null | all | visible
  | win (w : ℕ)
  deriving DecidableEq

/-- `g_window_manager`, with the memory of the windows by their addresses. The `z_list` nodes are in
`z_ordered` only, which is the list of its windows from front to back. -/
structure WindowManager where
  windows : ℕ → Option ℕ := fun _ => none
  windowCount : ℤ := 0
  nextWindowId : ℕ := 1
  maxZIndex : ℤ := 0
  links : ListHeads Node
  zOrdered : List ℕ := []
  focusedWindow : Option ℕ := none
  previousFocus : Option ℕ := none
  desktopWidth : ℤ
  desktopHeight : ℤ
  modalWindow : Option ℕ := none
  window : ℕ → Window := fun _ => {}

inductive Frame
  | focus (w : ℕ)
  | raise (w : ℕ)
  /-- `if (window_is_focused(win)) window_unfocus();` -/
  | unfocus (w : ℕ)

def Frame.win : Frame → ℕ
  | focus w => w
  | raise w => w
  | unfocus w => w

/-- Nodes of windows that have not been allocated are null. -/
def noLinks : ListHeads Node :=
  ((⟨fun _ => .null, fun _ => .null⟩ : ListHeads Node).initListHead .all).initListHead .visible

def windowManagerInit (width height : ℤ) : WindowManager :=
  { links := noLinks, desktopWidth := width, desktopHeight := height }

def windowCanFocus (win : Window) : Bool :=
  win.visible && win.state ≠ .destroyed && win.state ≠ .minimized

def clampSize (low high size : ℤ) : ℤ :=
  let size := if size < low then low else size
  if high < size then high else size

def clampPlace (desktop size place : ℤ) : ℤ :=
  let place := if place < 0 then 0 else place
  if desktop < place + size then desktop - size else place

/-- `list_add(&win->z_list, &above->z_list)`. -/
def addAfter (w above : ℕ) : List ℕ → List ℕ
  | [] => []
  | v :: l => if v = above then v :: w :: l else v :: addAfter w above l

namespace WindowManager

variable (s : WindowManager)

def modify (w : ℕ) (f : Window → Window) : WindowManager :=
  { s with window := Function.update s.window w (f (s.window w)) }

@[simp] theorem modify_self (w : ℕ) (f : Window → Window) :
    (s.modify w f).window w = f (s.window w) :=
  Function.update_self ..

@[simp] theorem modify_of_ne {v w : ℕ} (h : v ≠ w) (f : Window → Window) :
    (s.modify w f).window v = s.window v :=
  Function.update_of_ne h ..

def allocWindowId : Option ℕ :=
  ((List.range maxWindows).map fun i => (s.nextWindowId + i) % maxWindows).find? fun id =>
    id ≠ 0 ∧ s.windows id = none

/-- The windows are counted from back to front. -/
def updateZIndices : WindowManager :=
  { s.zOrdered.reverse.zipIdx.foldl (fun s p => s.modify p.1 fun win =>
    { win with zIndex := p.2 }) s with
    maxZIndex := (s.zOrdered.length : ℤ) - 1 }

def allocWindow (w : ℕ) : WindowManager :=
  { s.modify w (fun _ => {}) with links := s.links.initListHead (.win w) }

/-- The part of `window_create` that is under the lock. -/
def addWindow (w : ℕ) (win : Window) : WindowManager :=
  let s := s.modify w fun _ => win
  let s := { s with
    windows := Function.update s.windows win.id (some w)
    windowCount := s.windowCount + 1
    links := s.links.listAdd (.win w) .all
    zOrdered := w :: s.zOrdered }
  let s := s.updateZIndices
  { s with links := s.links.listAdd (.win w) .visible }

/-- Up to where the lock is released. `mem` is what `kmalloc` returns. -/
def windowCreate (mem : Option ℕ) (x y width height : ℤ) (flags : BitVec 32) :
    WindowManager × List Frame :=
  let width := clampSize minWindowWidth maxWindowWidth width
  let height := clampSize minWindowHeight maxWindowHeight height
  let x := clampPlace s.desktopWidth width x
  let y := clampPlace s.desktopHeight height y
  match mem with
  | none => (s, [])
  | some w =>
    let s := s.allocWindow w
    match s.allocWindowId with
    | none => (s, [])
    | some id =>
      let s := { s with nextWindowId := (id + 1) % maxWindows }
      let s := s.addWindow w
        { id := id, x := x, y := y, width := width, height := height, flags := flags, visible := true }
      (s, if windowCanFocus (s.window w) then [.focus w] else [])

def windowDestroy (win : Option ℕ) : WindowManager × List Frame :=
  match win with
  | none => (s, [])
  | some w =>
    let s := { s with
      focusedWindow := if s.focusedWindow = some w then none else s.focusedWindow
      previousFocus := if s.previousFocus = some w then none else s.previousFocus
      modalWindow := if s.modalWindow = some w then none else s.modalWindow
      links := s.links.listDel .null (.win w)
      zOrdered := s.zOrdered.erase w
      windows := Function.update s.windows (s.window w).id none
      windowCount := s.windowCount - 1 }
    let s := s.modify w fun win => { win with state := .destroyed }
    match s.previousFocus with
    | none => (s, [])
    | some p => (s, if (s.window p).state ≠ .destroyed then [.focus p] else [])

def windowShow (win : Option ℕ) : WindowManager × List Frame :=
  match win with
  | none => (s, [])
  | some w =>
    if (s.window w).state = .destroyed then (s, [])
    else (s.modify w fun win => { win with
      visible := true
      state := if win.state = .hidden then .normal else win.state }, [.raise w])

/-- `list_del(&win->list); INIT_LIST_HEAD(&win->list);` -/
def unlink (w : ℕ) : WindowManager :=
  { s with links := (s.links.listDel .null (.win w)).initListHead (.win w) }

def windowHide (win : Option ℕ) : WindowManager × List Frame :=
  match win with
  | none => (s, [])
  | some w =>
    if (s.window w).state = .destroyed then (s, [])
    else
      let s := s.modify w fun win => { win with visible := false, state := .hidden }
      (s.unlink w, [.unfocus w])

def windowMinimize (win : Option ℕ) : WindowManager × List Frame :=
  match win with
  | none => (s, [])
  | some w =>
    if (s.window w).state = .destroyed ∨ (s.window w).flags &&& windowFlagMinimizable = 0 then (s, [])
    else
      let s := s.modify w fun win => { win with
        prevX := win.x
        prevY := win.y
        prevWidth := win.width
        prevHeight := win.height
        state := .minimized
        visible := false }
      (s.unlink w, [.unfocus w])

def windowMaximize (win : Option ℕ) : WindowManager :=
  match win with
  | none => s
  | some w =>
    if (s.window w).state = .destroyed ∨ (s.window w).flags &&& windowFlagMaximizable = 0 ∨
        (s.window w).state = .maximized then s
    else s.modify w fun win => { win with
      prevX := win.x
      prevY := win.y
      prevWidth := win.width
      prevHeight := win.height
      x := 0
      y := 28
      width := s.desktopWidth
      height := s.desktopHeight - 28 - 70
      state := .maximized }

def windowRestore (win : Option ℕ) : WindowManager × List Frame :=
  match win with
  | none => (s, [])
  | some w =>
    match (s.window w).state with
    | .minimized =>
      let s := s.modify w fun win => { win with state := .normal, visible := true }
      ({ s with links := s.links.listAdd (.win w) .visible }, [.raise w, .focus w])
    | .maximized => (s.modify w fun win => { win with
        x := win.prevX
        y := win.prevY
        width := win.prevWidth
        height := win.prevHeight
        state := .normal }, [])
    | _ => (s, [])

/-- The focus that `window_focus` takes away. -/
def saveFocus (w : ℕ) : WindowManager :=
  match s.focusedWindow with
  | none => s
  | some f =>
    if f = w then s
    else { s.modify f (fun win => { win with focused := false }) with previousFocus := some f }

def windowFocus (w : ℕ) : WindowManager × List Frame :=
  if (s.window w).state = .destroyed ∨ windowCanFocus (s.window w) = false ∨
      (s.modalWindow ≠ none ∧ s.modalWindow ≠ some w) then (s, [])
  else
    let s := s.saveFocus w
    ({ s.modify w (fun win => { win with focused := true }) with focusedWindow := some w }, [.raise w])

def windowUnfocus : WindowManager :=
  match s.focusedWindow with
  | none => s
  | some f =>
    { s.modify f (fun win => { win with focused := false }) with
      previousFocus := some f
      focusedWindow := none }

def windowRaise (w : ℕ) : WindowManager × List Frame :=
  ({ s with zOrdered := w :: s.zOrdered.erase w }.updateZIndices, [.focus w])

def windowLower (win : Option ℕ) : WindowManager :=
  match win with
  | none => s
  | some w => { s with zOrdered := s.zOrdered.erase w ++ [w] }.updateZIndices

def windowRaiseAbove (win above : Option ℕ) : WindowManager :=
  match win, above with
  | some w, some above => { s with zOrdered := addAfter w above (s.zOrdered.erase w) }.updateZIndices
  | _, _ => s

def resume : Frame → WindowManager × List Frame
  | .focus w => s.windowFocus w
  | .raise w => s.windowRaise w
  | .unfocus w => (if (s.window w).focused then s.windowUnfocus else s, [])

def Live (w : ℕ) : Prop := ∃ id < maxWindows, s.windows id = some w

instance (w : ℕ) : Decidable (s.Live w) := inferInstanceAs (Decidable (∃ id < maxWindows, _))

end WindowManager

inductive WindowCall
  | windowCreate (mem : Option ℕ) (x y width height : ℤ) (flags : BitVec 32)
  | windowDestroy (win : Option ℕ)
  | windowShow (win : Option ℕ)
  | windowHide (win : Option ℕ)
  | windowMinimize (win : Option ℕ)
  | windowRestore (win : Option ℕ)

def WindowCall.run (s : WindowManager) : WindowCall → WindowManager × List Frame
  | windowCreate mem x y width height flags => s.windowCreate mem x y width height flags
  | windowDestroy win => s.windowDestroy win
  | windowShow win => s.windowShow win
  | windowHide win => s.windowHide win
  | windowMinimize win => s.windowMinimize win
  | windowRestore win => s.windowRestore win

/-- The frames of a call are what it has not come to yet. -/
structure Callers where
  wm : WindowManager
  frames : List (List Frame) := []

/-- A new call, or the next part of an old one. -/
inductive WindowStep
  | call (c : WindowCall)
  | resume (i : ℕ)

def Callers.step (c : Callers) : WindowStep → Callers
  | .call call => ⟨(call.run c.wm).1, c.frames ++ [(call.run c.wm).2]⟩
  | .resume i =>
    match c.frames[i]? with
    | some (f :: rest) => ⟨(c.wm.resume f).1, c.frames.set i ((c.wm.resume f).2 ++ rest)⟩
    | _ => c

namespace WindowStep

/-- The calls are about live windows, and `kmalloc` returns no memory of a live one. -/
def Allowed (c : Callers) : WindowStep → Prop
  | call (.windowCreate mem ..) => ∀ w ∈ mem, ¬c.wm.Live w
  | call (.windowDestroy win) => ∀ w ∈ win, c.wm.Live w
  | call (.windowShow win) => ∀ w ∈ win, c.wm.Live w
  | call (.windowHide win) => ∀ w ∈ win, c.wm.Live w
  | call (.windowMinimize win) => ∀ w ∈ win, c.wm.Live w
  | call (.windowRestore win) => ∀ w ∈ win, c.wm.Live w
  | resume i => ∀ f rest, c.frames[i]? = some (f :: rest) → c.wm.Live f.win

instance (c : Callers) : (s : WindowStep) → Decidable (s.Allowed c)
  | call (.windowCreate mem ..) => inferInstanceAs (Decidable (∀ w ∈ mem, ¬c.wm.Live w))
  | call (.windowDestroy win) | call (.windowShow win) | call (.windowHide win)
  | call (.windowMinimize win) | call (.windowRestore win) =>
    inferInstanceAs (Decidable (∀ w ∈ win, c.wm.Live w))
  | resume i => decidable_of_iff (∀ f ∈ c.frames[i]?.bind List.head?, c.wm.Live f.win) (by
      rcases h : c.frames[i]? with _ | _ | ⟨f, rest⟩ <;> simp [Allowed, h])

/-- A `window_create` whose `kmalloc` succeeds. -/
def Allocates : WindowStep → Prop
  | call (.windowCreate mem ..) => mem ≠ none
  | _ => False

end WindowStep

end GcAos.Gui.Manager
