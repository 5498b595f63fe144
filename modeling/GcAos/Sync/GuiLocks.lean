import GcAos.Gui.Windows
import GcAos.Lib.Locks

/-! The locks of `kernel/core/gui_server.c`. -/

namespace GcAos.Sync
open Lib Gui LockAct

inductive GuiLock
  | window | surface | process
  /-- That of the queue of the window at an address. -/
  | event (win : ℕ)
  deriving DecidableEq

/-- The windows, with `last_buttons` of `gui_server_handle_mouse_event`. -/
structure GuiServer where
  server : Windows
  lastButtons : BitVec 32

section Calls

variable (s : Windows)

def guiServerShutdownLocks : List (LockAct GuiLock) :=
  if s.initialized = false then [] else under .window [] ++ under .surface [] ++ under .process []

/-- `mem` and `data` are what the allocators return. -/
def guiServerCreateSurfaceLocks (width height : BitVec 32) (mem data : Option ℕ) :
    List (LockAct GuiLock) :=
  if s.initialized = false ∨ width = 0 ∨ height = 0 ∨ mem = none ∨
    data = none then [] else under .surface []

/-- `gui_server_destroy_surface` and `gui_server_unmap_surface`. -/
def guiServerSurfaceLocks : List (LockAct GuiLock) :=
  if s.initialized = false then [] else under .surface []

def guiServerMapSurfaceLocks (addr : Bool) : List (LockAct GuiLock) :=
  if s.initialized = false ∨ addr = false then [] else under .surface []

def guiServerCreateWindowLocks (title : Option String) (mem : Option ℕ) : List (LockAct GuiLock) :=
  if s.initialized = false ∨ title = none ∨ mem = none then [] else under .window
    [] ++ under .process []

/-- The three locks are taken one after the other. -/
def guiServerDestroyWindowLocks (windowId : BitVec 32) : List (LockAct GuiLock) :=
  if s.initialized = false then []
  else
    match s.findWindow windowId with
    | some (some (a, _)) => under .window [] ++ under .process [] ++ under (.event a) []
    | _ => under .window []

def guiServerPostEventLocks (windowId : BitVec 32) (event : Option GuiEvent) (mem : Option ℕ) :
    List (LockAct GuiLock) :=
  if s.initialized = false ∨ event.isNone then []
  else under .window <|
    match s.findWindow windowId with
    | some (some (a, _)) => if mem = none then [] else under (.event a) []
    | _ => []

def firstWindow : Option GuiWindow := do
  let a ← s.windows.head?
  s.window a

def windowUnderCursor (x y : BitVec 32) : Option (Option (ℕ × GuiWindow)) :=
  findEntry s.window (fun win => win.visible ∧ win.x.sle x ∧ x.slt (win.x + win.width) ∧
    win.y.sle y ∧ y.slt (win.y + win.height)) s.windows

/-- The event is posted inside the section. -/
def guiServerHandleKeyEventLocks (keycode scancode : BitVec 32) (pressed shift ctrl alt : Bool)
    (mem : Option ℕ) :
    List (LockAct GuiLock) :=
  if s.initialized = false then []
  else
    let event : GuiEvent :=
      { type := if pressed then .keyDown else .keyUp
        windowId := 0
        timestamp := 0
        data := .key keycode scancode shift ctrl alt }
    under .window <|
      match firstWindow s with
      | none => []
      | some win => guiServerPostEventLocks s win.id (some event) mem

/-- The event is posted inside the section here too. -/
def postUnderCursorLocks (x y : BitVec 32) (event : GuiEvent) (mem : Option ℕ) :
    List (LockAct GuiLock) :=
  under .window <|
    match windowUnderCursor s x y with
    | some (some (_, win)) => guiServerPostEventLocks s win.id (some event) mem
    | _ => []

end Calls

namespace GuiServer

variable (s : GuiServer)

def moveLocks (x y buttons dx dy : BitVec 32) (mem : Option ℕ) : List (LockAct GuiLock) :=
  if dx ≠ 0 ∨ dy ≠ 0 then
    let event : GuiEvent :=
      { type := .mouseMove, windowId := 0, timestamp := 0, data := .mouse x y buttons dx dy 0 }
    postUnderCursorLocks s.server x y event mem
  else []

/-- `changed & (1 << i)` -/
def Changed (buttons : BitVec 32) (i : ℕ) : Prop := (buttons ^^^ s.lastButtons).getLsbD i

instance (buttons : BitVec 32) (i : ℕ) : Decidable (s.Changed buttons i) :=
    inferInstanceAs (Decidable (_ = true))

def buttonLocks (x y buttons : BitVec 32) (mem : Option ℕ) (i : ℕ) : List (LockAct GuiLock) :=
  if s.Changed buttons i then
    let type := if buttons.getLsbD i then GuiEventType.mouseDown else .mouseUp
    let event : GuiEvent :=
      { type := type, windowId := 0, timestamp := 0, data := .mouse x y buttons 0 0 0 }
    postUnderCursorLocks s.server x y event mem
  else []

/-- `mem` is what `kmem_cache_alloc` returns for the move and for each of the buttons. -/
def guiServerHandleMouseEventLocks (x y buttons dx dy : BitVec 32) (mem : Option ℕ)
    (memOf : ℕ → Option ℕ) :
    List (LockAct GuiLock) :=
  if s.server.initialized = false then []
  else s.moveLocks x y buttons dx dy mem ++
    (List.range 3).flatMap fun i => s.buttonLocks x y buttons (memOf i) i

end GuiServer

/-- Each window of the process is taken off the list of all windows while the mappings are locked. -/
def guiServerProcessExitLocks (s : Windows) (pid : BitVec 32) : List (LockAct GuiLock) :=
  if s.initialized = false then []
  else under .process <|
    match s.findProcess pid with
    | some (some (_, proc)) => proc.windows.flatMap fun _ => under .window []
    | _ => []

/-- The calls, with the arguments that their locks depend on. -/
inductive GuiOp
  | guiServerShutdown
  | guiServerCreateSurface (width height : BitVec 32) (mem data : Option ℕ)
  | guiServerDestroySurface
  | guiServerMapSurface (addr : Bool)
  | guiServerUnmapSurface
  | guiServerCreateWindow (title : Option String) (mem : Option ℕ)
  | guiServerDestroyWindow (windowId : BitVec 32)
  | guiServerPostEvent (windowId : BitVec 32) (event : Option GuiEvent) (mem : Option ℕ)
  | guiServerHandleKeyEvent (keycode scancode : BitVec 32) (pressed shift ctrl alt : Bool)
      (mem : Option ℕ)
  | guiServerHandleMouseEvent (x y buttons dx dy : BitVec 32) (mem : Option ℕ) (memOf : ℕ → Option ℕ)
  | guiServerProcessExit (pid : BitVec 32)
  /-- The calls that take no lock. -/
  | guiServerInit | guiServerGetFramebuffer | guiServerGetStats

namespace GuiOp

def locks (s : GuiServer) : GuiOp → List (LockAct GuiLock)
  | guiServerShutdown => guiServerShutdownLocks s.server
  | guiServerCreateSurface width height mem data =>
      guiServerCreateSurfaceLocks s.server width height mem data
  | guiServerDestroySurface => guiServerSurfaceLocks s.server
  | guiServerMapSurface addr => guiServerMapSurfaceLocks s.server addr
  | guiServerUnmapSurface => guiServerSurfaceLocks s.server
  | guiServerCreateWindow title mem => guiServerCreateWindowLocks s.server title mem
  | guiServerDestroyWindow windowId => guiServerDestroyWindowLocks s.server windowId
  | guiServerPostEvent windowId event mem => guiServerPostEventLocks s.server windowId event mem
  | guiServerHandleKeyEvent keycode scancode pressed shift ctrl alt mem =>
    guiServerHandleKeyEventLocks s.server keycode scancode pressed shift ctrl alt mem
  | guiServerHandleMouseEvent x y buttons dx dy mem memOf =>
    s.guiServerHandleMouseEventLocks x y buttons dx dy mem memOf
  | guiServerProcessExit pid => guiServerProcessExitLocks s.server pid
  | _ => []

/-- A key finds no window, and a mouse event that has to be posted finds none under the cursor. -/
def Safe (s : GuiServer) : GuiOp → Prop
  | guiServerHandleKeyEvent .. => s.server.initialized = true → firstWindow s.server = none
  | guiServerHandleMouseEvent x y buttons dx dy _ _ => s.server.initialized = true →
      (dx ≠ 0 ∨ dy ≠ 0 ∨ ∃ i < 3, s.Changed buttons i) → ∀ found,
        windowUnderCursor s.server x y ≠ some (some found)
  | _ => True

end GuiOp

/-! A window that is found is locked again to post the event. -/

section Windows

variable {s : Windows}

theorem deadlocks_guiServerPostEvent {held : List GuiLock} (hwindow : .window ∈ held)
    (hinit : s.initialized = true)
    (windowId : BitVec 32) (event : GuiEvent) (mem : Option ℕ) :
    Deadlocks held (guiServerPostEventLocks s windowId (some event) mem) := by
  have hargs : ¬(s.initialized = false ∨ (some event).isNone = true) := by simp [hinit]
  rw [guiServerPostEventLocks, if_neg hargs]
  exact deadlocks_under hwindow _

theorem returns_guiServerPostEvent (s : Windows) (windowId : BitVec 32) (event : Option GuiEvent)
    (mem : Option ℕ) :
    Returns [] (guiServerPostEventLocks s windowId event mem) := by
  unfold guiServerPostEventLocks
  split
  · exact returns_nil
  · refine returns_under List.not_mem_nil ?_
    split
    · split
      · exact returns_nil
      · exact returns_section (by simp)
    · exact returns_nil

theorem deadlocks_postUnderCursor {x y : BitVec 32} {found : ℕ × GuiWindow}
    (hinit : s.initialized = true)
    (hfound : windowUnderCursor s x y = some (some found)) (event : GuiEvent) (mem : Option ℕ) :
    Deadlocks [] (postUnderCursorLocks s x y event mem) := by
  refine Deadlocks.under ?_
  rw [hfound]
  exact deadlocks_guiServerPostEvent List.mem_cons_self hinit _ _ _

theorem returns_postUnderCursor {x y : BitVec 32}
    (hnone : ∀ found, windowUnderCursor s x y ≠ some (some found))
    (event : GuiEvent) (mem : Option ℕ) : Returns [] (postUnderCursorLocks s x y event mem) := by
  refine returns_under List.not_mem_nil ?_
  split
  next found hfound => exact absurd hfound (hnone _)
  next => exact returns_nil

theorem deadlocks_guiServerHandleKeyEvent (hinit : s.initialized = true) (hfirst : firstWindow s ≠ none)
    (keycode scancode : BitVec 32) (pressed shift ctrl alt : Bool) (mem : Option ℕ) :
    Deadlocks [] (guiServerHandleKeyEventLocks s keycode scancode pressed shift ctrl alt mem) := by
  obtain ⟨win, hwin⟩ := Option.ne_none_iff_exists'.mp hfirst
  rw [guiServerHandleKeyEventLocks, if_neg (by simp [hinit])]
  refine Deadlocks.under ?_
  rw [hwin]
  exact deadlocks_guiServerPostEvent List.mem_cons_self hinit _ _ _

theorem returns_guiServerHandleKeyEvent (hfirst : s.initialized = true → firstWindow s = none)
    (keycode scancode : BitVec 32) (pressed shift ctrl alt : Bool) (mem : Option ℕ) :
    Returns [] (guiServerHandleKeyEventLocks s keycode scancode pressed shift ctrl alt mem) := by
  unfold guiServerHandleKeyEventLocks
  split
  · exact returns_nil
  next hinit =>
    rw [hfirst (Bool.eq_true_of_not_eq_false hinit)]
    exact returns_alone _

theorem returns_guiServerProcessExit (s : Windows) (pid : BitVec 32) :
    Returns [] (guiServerProcessExitLocks s pid) := by
  unfold guiServerProcessExitLocks
  split
  · exact returns_nil
  · refine returns_under List.not_mem_nil ?_
    split
    · exact returns_flatMap fun a _ => returns_section (by simp)
    · exact returns_nil

theorem returns_guiServerDestroyWindow (s : Windows) (windowId : BitVec 32) :
    Returns [] (guiServerDestroyWindowLocks s windowId) := by
  unfold guiServerDestroyWindowLocks
  split
  · exact returns_nil
  · split
    · exact ((returns_alone _).append (returns_alone _)).append (returns_alone _)
    · exact returns_alone _

end Windows

section Mouse

variable {s : GuiServer} {x y buttons dx dy : BitVec 32} {mem : Option ℕ} {memOf : ℕ → Option ℕ}

theorem deadlocks_buttons {found : ℕ × GuiWindow} (hinit : s.server.initialized = true)
    (hfound : windowUnderCursor s.server x y = some (some found)) {l : List ℕ}
      (hl : ∃ i ∈ l, s.Changed buttons i) :
    Deadlocks [] (l.flatMap fun i => s.buttonLocks x y buttons (memOf i) i) := by
  induction l with
  | nil =>
    obtain ⟨i, hi, -⟩ := hl
    exact absurd hi List.not_mem_nil
  | cons i l ih =>
    rw [List.flatMap_cons]
    by_cases hi : s.Changed buttons i
    · refine Deadlocks.append ?_ _
      rw [GuiServer.buttonLocks, if_pos hi]
      exact deadlocks_postUnderCursor hinit hfound _ _
    · rw [GuiServer.buttonLocks, if_neg hi]
      refine returns_nil.append_deadlocks (ih ?_)
      obtain ⟨j, hj, hchanged⟩ := hl
      obtain rfl | hj := List.mem_cons.mp hj
      · exact absurd hchanged hi
      · exact ⟨j, hj, hchanged⟩

theorem deadlocks_mouse {found : ℕ × GuiWindow} (hinit : s.server.initialized = true)
    (hfound : windowUnderCursor s.server x y = some (some found))
    (hposts : dx ≠ 0 ∨ dy ≠ 0 ∨ ∃ i < 3, s.Changed buttons i) :
    Deadlocks [] (s.guiServerHandleMouseEventLocks x y buttons dx dy mem memOf) := by
  rw [GuiServer.guiServerHandleMouseEventLocks, if_neg (by simp [hinit])]
  by_cases hmove : dx ≠ 0 ∨ dy ≠ 0
  · refine Deadlocks.append ?_ _
    rw [GuiServer.moveLocks, if_pos hmove]
    exact deadlocks_postUnderCursor hinit hfound _ _
  · rw [GuiServer.moveLocks, if_neg hmove]
    obtain ⟨i, hi, hchanged⟩ := (or_assoc.mpr hposts).resolve_left hmove
    exact returns_nil.append_deadlocks
      (deadlocks_buttons hinit hfound ⟨i, List.mem_range.mpr hi, hchanged⟩)

theorem returns_mouse (hsafe : s.server.initialized = true →
    (dx ≠ 0 ∨ dy ≠ 0 ∨ ∃ i < 3, s.Changed buttons i) →
      ∀ found, windowUnderCursor s.server x y ≠ some (some found)) :
    Returns [] (s.guiServerHandleMouseEventLocks x y buttons dx dy mem memOf) := by
  unfold GuiServer.guiServerHandleMouseEventLocks
  split
  · exact returns_nil
  next hinit =>
    have hnone := hsafe (Bool.eq_true_of_not_eq_false hinit)
    refine Returns.append ?_ (returns_flatMap fun i hi => ?_)
    · unfold GuiServer.moveLocks
      split
      next hmove => exact returns_postUnderCursor (hnone (or_assoc.mp (.inl hmove))) _ _
      · exact returns_nil
    · unfold GuiServer.buttonLocks
      split
      next hchanged =>
        exact returns_postUnderCursor (hnone (.inr (.inr ⟨i, List.mem_range.mp hi, hchanged⟩))) _ _
      · exact returns_nil

end Mouse

variable {s : GuiServer}

theorem returns_gui {op : GuiOp} (hsafe : op.Safe s) : Returns [] (op.locks s) := by
  cases op with
  | guiServerShutdown =>
    simp only [GuiOp.locks, guiServerShutdownLocks]
    split
    · exact returns_nil
    · exact ((returns_alone _).append (returns_alone _)).append (returns_alone _)
  | guiServerCreateSurface => exact returns_checked _ _
  | guiServerDestroySurface => exact returns_checked _ _
  | guiServerMapSurface => exact returns_checked _ _
  | guiServerUnmapSurface => exact returns_checked _ _
  | guiServerCreateWindow title mem =>
    simp only [GuiOp.locks, guiServerCreateWindowLocks]
    split
    · exact returns_nil
    · exact (returns_alone _).append (returns_alone _)
  | guiServerDestroyWindow windowId => exact returns_guiServerDestroyWindow _ _
  | guiServerPostEvent windowId event mem => exact returns_guiServerPostEvent _ _ _ _
  | guiServerHandleKeyEvent => exact returns_guiServerHandleKeyEvent hsafe _ _ _ _ _ _ _
  | guiServerHandleMouseEvent => exact returns_mouse hsafe
  | guiServerProcessExit pid => exact returns_guiServerProcessExit _ _
  | _ => exact returns_nil

theorem gui_deadlocks_iff (s : GuiServer) (op : GuiOp) : ¬Deadlocks [] (op.locks s) ↔ op.Safe s := by
  refine ⟨fun hfree => ?_, fun hsafe => (returns_gui hsafe).not_deadlocks⟩
  cases op with
  | guiServerHandleKeyEvent =>
    exact fun hinit => by_contra fun hfirst =>
      hfree (deadlocks_guiServerHandleKeyEvent hinit hfirst _ _ _ _ _ _ _)
  | guiServerHandleMouseEvent =>
    exact fun hinit hposts found hfound => hfree (deadlocks_mouse hinit hfound hposts)
  | _ => exact trivial

end GcAos.Sync
