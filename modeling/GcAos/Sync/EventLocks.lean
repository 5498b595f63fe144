import GcAos.Events.EventSystem
import GcAos.Lib.Locks

/-! The locks of `kernel/core/event_system.c`: what each call takes and releases, one after the
other. There is one lock, that of the queue. -/

namespace GcAos.Sync
open Lib Events LockAct

/-- The handlers and the router that are called for an event, which are code of the clients: called
without a lock they come back without one. -/
structure Handlers where
  locks : ℕ → List (LockAct Unit)
  returns : ∀ event, Returns [] (locks event)

section Calls

variable (s : EventSystem)

def allocEventFromPoolLocks : List (LockAct Unit) := under () []

def freeEventToPoolLocks : List (LockAct Unit) := under () []

/-- `free_event_to_pool` is called for each pending event inside the section. -/
def eventSystemShutdownLocks : List (LockAct Unit) :=
  under () (s.queue.pendingList.flatMap fun _ => freeEventToPoolLocks)

def eventCreateLocks : List (LockAct Unit) := allocEventFromPoolLocks

def eventFreeLocks (event : Option ℕ) : List (LockAct Unit) :=
  match event with
  | none => []
  | some _ => freeEventToPoolLocks

def eventPostLocks (event : Option ℕ) : List (LockAct Unit) :=
  if event = none ∨ s.enabled = false then [] else under () []

def postCreatedLocks (type : EventType) (fill : EventSystem → ℕ → EventSystem) : List (LockAct Unit) :=
  eventCreateLocks ++
    match s.eventCreate type with
    | (_, none) => []
    | (s, some e) => eventPostLocks (fill s e) (some e)

def eventDispatchLocks (h : Handlers) (event : Option ℕ) : List (LockAct Unit) :=
  match event with
  | none => []
  | some e => h.locks e ++ eventFreeLocks (some e)

/-- `taken` are the events that the turns of the loop take. The last turn finds no event. -/
def eventDispatchAllLocks (h : Handlers) (taken : List ℕ) : List (LockAct Unit) :=
  (taken.flatMap fun e => under () [] ++ eventDispatchLocks h (some e)) ++ under () []

def eventPollLocks : List (LockAct Unit) := under () []

def eventPostKeyboardLocks (type : EventType) (keycode scancode modifiers : BitVec 32)
    (character : BitVec 8)
    (focused : Target) : List (LockAct Unit) :=
  postCreatedLocks s type fun s e => s.modifyEvent e fun event =>
    EventSystem.routeTo focused { event with data := .keyboard keycode scancode modifiers character }

def eventPostMouseLocks (type : EventType) (x y button modifiers : BitVec 32) (win : Target) :
    List (LockAct Unit) :=
  postCreatedLocks s type fun s e => s.modifyEvent e fun event =>
    EventSystem.routeTo win { event with data := .mouse x y 0 0 button 0 modifiers }

def eventPostWindowLocks (type : EventType) (windowId x y width height : BitVec 32)
    (owner : Option (BitVec 32)) :
    List (LockAct Unit) :=
  postCreatedLocks s type fun s e => s.modifyEvent e fun event =>
    EventSystem.routeTo (some (windowId, owner))
      { event with data := .window windowId x y width height }

def eventPostSystemLocks (type : EventType) : List (LockAct Unit) :=
  postCreatedLocks s type fun s e =>
    let (s, now) := s.getTimeNs
    s.modifyEvent e fun event => { event with data := .system now }

def eventInputKeyboardLocks (scancode : BitVec 32) (pressed : Bool) (focused : Target) :
    List (LockAct Unit) :=
  let keycode := EventSystem.scancodeToKeycode scancode
  let type := if pressed then eventKeyDown else eventKeyUp
  let character : BitVec 8 := if pressed ∧ keycode.toInt < 128 then keycode.setWidth 8 else 0
  eventPostKeyboardLocks s type keycode scancode 0 character focused

def inputMoveLocks (x y : BitVec 32) : List (LockAct Unit) :=
  if x ≠ s.prevMouseX ∨ y ≠ s.prevMouseY then
    postCreatedLocks s eventMouseMove fun s e => s.modifyEvent e fun event =>
      { event with data := .mouse x y (x - s.prevMouseX) (y - s.prevMouseY) 0 0 0 }
  else []

def inputButtonLocks (x y buttonMask : BitVec 32) (win : ℕ → Target) (i : ℕ) : List (LockAct Unit) :=
  if EventSystem.isPressed buttonMask i ∧ ¬EventSystem.isPressed s.prevButtonMask i then
    eventPostMouseLocks s eventMouseDown x y (.ofNat 32 i) 0 (win i)
  else if ¬EventSystem.isPressed buttonMask i ∧ EventSystem.isPressed s.prevButtonMask i then
    eventPostMouseLocks s eventMouseUp x y (.ofNat 32 i) 0 (win i)
  else []

def inputButtonsLocks (x y buttonMask : BitVec 32) (win : ℕ → Target) (s : EventSystem) :
    List ℕ → List (LockAct Unit)
  | [] => []
  | i :: rest => inputButtonLocks s x y buttonMask win i ++
      inputButtonsLocks x y buttonMask win (s.inputButton x y buttonMask win i) rest

def inputScrollLocks (x y deltaZ : BitVec 32) : List (LockAct Unit) :=
  if deltaZ ≠ 0 then
    postCreatedLocks s eventMouseScroll fun s e => s.modifyEvent e fun event =>
      { event with data := .mouse x y 0 0 0 deltaZ 0 }
  else []

def eventInputMouseLocks (x y buttonMask deltaZ : BitVec 32) (win : ℕ → Target) : List (LockAct Unit) :=
  let moved := s.inputMove x y
  let pressed := (List.range 5).foldl (fun s i => s.inputButton x y buttonMask win i) moved
  inputMoveLocks s x y ++ inputButtonsLocks x y buttonMask win moved (List.range 5) ++
    inputScrollLocks pressed x y deltaZ

end Calls

/-- The calls, with the arguments that their locks depend on. -/
inductive EventOp
  | eventSystemShutdown
  | eventCreate (type : EventType)
  | eventFree (event : Option ℕ)
  | eventPost (event : Option ℕ)
  | eventPostKeyboard (type : EventType) (keycode scancode modifiers : BitVec 32) (character : BitVec 8)
      (focused : Target)
  | eventPostMouse (type : EventType) (x y button modifiers : BitVec 32) (win : Target)
  | eventPostWindow (type : EventType) (windowId x y width height : BitVec 32)
      (owner : Option (BitVec 32))
  | eventPostSystem (type : EventType)
  | eventDispatch (event : Option ℕ)
  | eventDispatchAll (taken : List ℕ)
  | eventPoll
  | eventInputKeyboard (scancode : BitVec 32) (pressed : Bool) (focused : Target)
  | eventInputMouse (x y buttonMask deltaZ : BitVec 32) (win : ℕ → Target)
  /-- The calls that take no lock. -/
  | eventSystemInit | eventSystemEnable | eventSystemDisable | eventSetTarget
  | eventRegisterHandler | eventUnregisterHandler | eventSetRouter | eventGetStats | eventDumpStats

namespace EventOp

def locks (h : Handlers) (s : EventSystem) : EventOp → List (LockAct Unit)
  | eventSystemShutdown => eventSystemShutdownLocks s
  | eventCreate _ => eventCreateLocks
  | eventFree event => eventFreeLocks event
  | eventPost event => eventPostLocks s event
  | eventPostKeyboard type keycode scancode modifiers character focused =>
    eventPostKeyboardLocks s type keycode scancode modifiers character focused
  | eventPostMouse type x y button modifiers win => eventPostMouseLocks s type x y button modifiers win
  | eventPostWindow type windowId x y width height owner =>
    eventPostWindowLocks s type windowId x y width height owner
  | eventPostSystem type => eventPostSystemLocks s type
  | eventDispatch event => eventDispatchLocks h event
  | eventDispatchAll taken => eventDispatchAllLocks h taken
  | eventPoll => eventPollLocks
  | eventInputKeyboard scancode pressed focused => eventInputKeyboardLocks s scancode pressed focused
  | eventInputMouse x y buttonMask deltaZ win => eventInputMouseLocks s x y buttonMask deltaZ win
  | _ => []

/-- A shutdown finds no pending events. -/
def Safe (s : EventSystem) : EventOp → Prop
  | eventSystemShutdown => s.queue.pendingList = []
  | _ => True

end EventOp

variable {s : EventSystem}

theorem returns_eventPost (s : EventSystem) (event : Option ℕ) : Returns [] (eventPostLocks s event) :=
  returns_checked _ ()

theorem returns_postCreated (s : EventSystem) (type : EventType)
    (fill : EventSystem → ℕ → EventSystem) :
    Returns [] (postCreatedLocks s type fill) := by
  refine (returns_alone ()).append ?_
  split
  · exact returns_nil
  · exact returns_eventPost _ _

theorem returns_eventDispatch (h : Handlers) (event : Option ℕ) :
    Returns [] (eventDispatchLocks h event) := by
  cases event with
  | none => exact returns_nil
  | some e => exact (h.returns e).append (returns_alone ())

theorem returns_inputButtons (x y buttonMask : BitVec 32) (win : ℕ → Target) (s : EventSystem)
    (l : List ℕ) :
    Returns [] (inputButtonsLocks x y buttonMask win s l) := by
  induction l generalizing s with
  | nil => exact returns_nil
  | cons i l ih =>
    refine Returns.append ?_ (ih _)
    unfold inputButtonLocks
    split
    · exact returns_postCreated _ _ _
    · split
      · exact returns_postCreated _ _ _
      · exact returns_nil

theorem returns_eventInputMouse (s : EventSystem) (x y buttonMask deltaZ : BitVec 32)
    (win : ℕ → Target) :
    Returns [] (eventInputMouseLocks s x y buttonMask deltaZ win) := by
  refine (Returns.append ?_ (returns_inputButtons _ _ _ _ _ _)).append ?_
  · unfold inputMoveLocks
    split
    · exact returns_postCreated _ _ _
    · exact returns_nil
  · unfold inputScrollLocks
    split
    · exact returns_postCreated _ _ _
    · exact returns_nil

theorem deadlocks_shutdown (hpending : s.queue.pendingList ≠ []) :
    Deadlocks [] (eventSystemShutdownLocks s) := by
  obtain ⟨e, rest, hlist⟩ := List.exists_cons_of_ne_nil hpending
  refine Deadlocks.under ?_
  rw [hlist, List.flatMap_cons]
  exact (deadlocks_under List.mem_cons_self []).append _

theorem returns_event (h : Handlers) {op : EventOp} (hsafe : op.Safe s) :
    Returns [] (op.locks h s) := by
  cases op with
  | eventSystemShutdown =>
    have hempty : s.queue.pendingList = [] := hsafe
    refine returns_under List.not_mem_nil ?_
    rw [hempty]
    exact returns_nil
  | eventCreate type => exact returns_alone ()
  | eventFree event =>
    cases event with
    | none => exact returns_nil
    | some e => exact returns_alone ()
  | eventPost event => exact returns_eventPost s event
  | eventPostKeyboard => exact returns_postCreated _ _ _
  | eventPostMouse => exact returns_postCreated _ _ _
  | eventPostWindow => exact returns_postCreated _ _ _
  | eventPostSystem type => exact returns_postCreated _ _ _
  | eventDispatch event => exact returns_eventDispatch h event
  | eventDispatchAll taken =>
    exact (returns_flatMap fun e _ => (returns_alone ()).append
      (returns_eventDispatch h (some e))).append (returns_alone ())
  | eventPoll => exact returns_alone ()
  | eventInputKeyboard => exact returns_postCreated _ _ _
  | eventInputMouse x y buttonMask deltaZ win =>
      exact returns_eventInputMouse s x y buttonMask deltaZ win
  | _ => exact returns_nil

theorem event_deadlocks_iff (h : Handlers) (s : EventSystem) (op : EventOp) :
    ¬Deadlocks [] (op.locks h s) ↔ op.Safe s := by
  refine ⟨fun hfree => ?_, fun hsafe => (returns_event h hsafe).not_deadlocks⟩
  cases op with
  | eventSystemShutdown => exact by_contra fun hpending => hfree (deadlocks_shutdown hpending)
  | _ => exact trivial

end GcAos.Sync
