import GcAos.Lib.Exec
import Mathlib.Data.List.Nodup
import Mathlib.Tactic

/-! The event pool of `kernel/core/event_system.c`. -/

namespace GcAos.Events
open Lib

def eventQueueSize : ℕ := 1024

/-- `event_type_t`, which user code extends. -/
abbrev EventType := ℕ

def eventKeyDown : EventType := 0
def eventKeyUp : EventType := 1
def eventMouseMove : EventType := 3
def eventMouseDown : EventType := 4
def eventMouseUp : EventType := 5
def eventMouseScroll : EventType := 6

/-- The union `data` of an event, of which the rest is zero. -/
inductive EventData
  | raw
  | keyboard (keycode scancode modifiers : BitVec 32) (character : BitVec 8)
  | mouse (x y deltaX deltaY button scrollDelta modifiers : BitVec 32)
  | window (windowId x y width height : BitVec 32)
  | system (timestamp : BitVec 64)

structure Event where
  type : EventType
  id : BitVec 32
  timestamp : BitVec 64
  targetWindow : BitVec 32 := -1
  targetProcess : BitVec 32 := -1
  data : EventData := .raw

/-- `event_queue_t`: the lists are those of the indices into `events`. `accepted` and `left` are not in
the source. They are the events that `event_post` has accepted and those that have left the pending
list, in this order. -/
structure EventQueue where
  freeList : List ℕ
  pendingList : List ℕ := []
  count : ℕ := 0
  accepted : List ℕ := []
  left : List ℕ := []

/-- `g_event_system`, with the counter of `get_time_ns` and the last state of the mouse. -/
structure EventSystem where
  queue : EventQueue
  events : ℕ → Option Event := fun _ => none
  enabled : Bool := true
  nextEventId : BitVec 32 := 0
  counter : BitVec 64 := 0
  eventsPosted : BitVec 64 := 0
  eventsDispatched : BitVec 64 := 0
  eventsDropped : BitVec 64 := 0
  prevMouseX : BitVec 32 := 0
  prevMouseY : BitVec 32 := 0
  prevButtonMask : BitVec 32 := 0

/-- `event_system_init`: every event is added at the head of the free list. -/
def eventSystemInit : EventSystem where
  queue := { freeList := (List.range eventQueueSize).reverse }

abbrev Target := Option (BitVec 32 × Option (BitVec 32))

namespace EventSystem

variable (s : EventSystem)

def allocEventFromPool : EventSystem × Option ℕ :=
  match s.queue.freeList with
  | [] => (s, none)
  | e :: rest => ({ s with queue := { s.queue with freeList := rest, count := s.queue.count + 1 } },
      some e)

def freeEventToPool (e : ℕ) : EventSystem :=
  let s := { s with queue := { s.queue with freeList := e :: s.queue.freeList } }
  if 0 < s.queue.count then { s with queue := { s.queue with count := s.queue.count - 1 } } else s

def getTimeNs : EventSystem × BitVec 64 :=
  ({ s with counter := s.counter + 1 }, (s.counter + 1) * 1000000)

def setEvent (e : ℕ) (event : Event) : EventSystem :=
  { s with events := Function.update s.events e (some event) }

def modifyEvent (e : ℕ) (f : Event → Event) : EventSystem :=
  { s with events := Function.update s.events e ((s.events e).map f) }

def eventCreate (type : EventType) : EventSystem × Option ℕ :=
  match s.allocEventFromPool with
  | (s, none) => ({ s with eventsDropped := s.eventsDropped + 1 }, none)
  | (s, some e) =>
    let id := s.nextEventId
    let (s, now) := { s with nextEventId := s.nextEventId + 1 }.getTimeNs
    (s.setEvent e { type := type, id := id, timestamp := now }, some e)

def eventFree (event : Option ℕ) : EventSystem :=
  match event with
  | none => s
  | some e => s.freeEventToPool e

def eventPost (event : Option ℕ) : EventSystem × ℤ :=
  match event with
  | none => (s, -1)
  | some e =>
    if s.enabled = false then (s, -1)
    else
      let queue := { s.queue with
        pendingList := s.queue.pendingList ++ [e]
        accepted := s.queue.accepted ++ [e] }
      ({ s with queue := queue, eventsPosted := s.eventsPosted + 1 }, 0)

/-- What the helpers have in common: an event is created, filled in and posted. -/
def postCreated (type : EventType) (fill : EventSystem → ℕ → EventSystem) : EventSystem × ℤ :=
  match s.eventCreate type with
  | (s, none) => (s, -1)
  | (s, some e) => (fill s e).eventPost e

def routeTo (target : Target) (event : Event) : Event :=
  match target with
  | none => event
  | some (window, none) => { event with targetWindow := window }
  | some (window, some owner) => { event with targetWindow := window, targetProcess := owner }

/-- `focused` is what `window_get_focused` returns. -/
def eventPostKeyboard (type : EventType) (keycode scancode modifiers : BitVec 32) (character : BitVec 8)
    (focused : Target) : EventSystem × ℤ :=
  s.postCreated type fun s e => s.modifyEvent e fun event =>
    routeTo focused { event with data := .keyboard keycode scancode modifiers character }

/-- `win` is what `window_at_position` returns. -/
def eventPostMouse (type : EventType) (x y button modifiers : BitVec 32) (win : Target) :
    EventSystem × ℤ :=
  s.postCreated type fun s e => s.modifyEvent e fun event =>
    routeTo win { event with data := .mouse x y 0 0 button 0 modifiers }

/-- `owner` is the process of the window that `window_get` returns, if there are both. -/
def eventPostWindow (type : EventType) (windowId x y width height : BitVec 32)
    (owner : Option (BitVec 32)) :
    EventSystem × ℤ :=
  s.postCreated type fun s e => s.modifyEvent e fun event =>
    routeTo (some (windowId, owner)) { event with data := .window windowId x y width height }

def eventPostSystem (type : EventType) : EventSystem × ℤ :=
  s.postCreated type fun s e =>
    let (s, now) := s.getTimeNs
    s.modifyEvent e fun event => { event with data := .system now }

def takePending : EventSystem × Option ℕ :=
  match s.queue.pendingList with
  | [] => (s, none)
  | e :: rest =>
    ({ s with queue := { s.queue with pendingList := rest, left := s.queue.left ++ [e] } }, some e)

def eventPoll : EventSystem × Option ℕ := s.takePending

/-- The end of `event_dispatch`, when the handlers have been called. -/
def dispatched (e : ℕ) : EventSystem :=
  { s with eventsDispatched := s.eventsDispatched + 1 }.eventFree e

/-- `event_dispatch_all` when the handlers call nothing of the event system: each turn takes the first
pending event and frees it. -/
def eventDispatchAll : EventSystem :=
  s.queue.pendingList.foldl (fun s _ =>
    match s.takePending with
    | (s, none) => s
    | (s, some e) => s.dispatched e) s

def scancodeToKeycode (scancode : BitVec 32) : BitVec 32 :=
  if scancode = 0x01 then 27
  else if scancode = 0x02 then 49
  else if scancode = 0x03 then 50
  else if scancode = 0x1E then 97
  else if scancode = 0x30 then 98
  else if scancode = 0x2E then 99
  else if scancode = 0x20 then 100
  else if scancode = 0x1C then 13
  else if scancode = 0x39 then 32
  else if scancode = 0x0E then 8
  else scancode

def eventInputKeyboard (scancode : BitVec 32) (pressed : Bool) (focused : Target) : EventSystem :=
  let keycode := scancodeToKeycode scancode
  let type := if pressed then eventKeyDown else eventKeyUp
  let character : BitVec 8 := if pressed ∧ keycode.toInt < 128 then keycode.setWidth 8 else 0
  (s.eventPostKeyboard type keycode scancode 0 character focused).1

def isPressed (mask : BitVec 32) (i : ℕ) : Bool := mask.getLsbD i

def inputButton (x y buttonMask : BitVec 32) (win : ℕ → Target) (i : ℕ) : EventSystem :=
  if isPressed buttonMask i ∧ ¬isPressed s.prevButtonMask i then
    (s.eventPostMouse eventMouseDown x y (.ofNat 32 i) 0 (win i)).1
  else if ¬isPressed buttonMask i ∧ isPressed s.prevButtonMask i then
    (s.eventPostMouse eventMouseUp x y (.ofNat 32 i) 0 (win i)).1
  else s

def inputMove (x y : BitVec 32) : EventSystem :=
  if x ≠ s.prevMouseX ∨ y ≠ s.prevMouseY then
    (s.postCreated eventMouseMove fun s e => s.modifyEvent e fun event =>
      { event with data := .mouse x y (x - s.prevMouseX) (y - s.prevMouseY) 0 0 0 }).1
  else s

def inputScroll (x y deltaZ : BitVec 32) : EventSystem :=
  if deltaZ ≠ 0 then
    (s.postCreated eventMouseScroll fun s e => s.modifyEvent e fun event =>
      { event with data := .mouse x y 0 0 0 deltaZ 0 }).1
  else s

/-- `win i` is what `window_at_position` returns for button `i`. -/
def eventInputMouse (x y buttonMask deltaZ : BitVec 32) (win : ℕ → Target) : EventSystem :=
  let s := s.inputMove x y
  let s := (List.range 5).foldl (fun s i => s.inputButton x y buttonMask win i) s
  let s := s.inputScroll x y deltaZ
  { s with prevMouseX := x, prevMouseY := y, prevButtonMask := buttonMask }

def eventSystemEnable : EventSystem := { s with enabled := true }

def eventSystemDisable : EventSystem := { s with enabled := false }

end EventSystem

/-! The clients of the event system. -/

/-- The events that client code has created or polled and neither freed nor posted since, and those that
handlers are being called for. -/
structure Clients where
  system : EventSystem := eventSystemInit
  held : List ℕ := []
  dispatching : List ℕ := []

/-- Between `dispatchNext`, with which a turn of the loop of `event_dispatch_all` begins, and
`dispatchDone`, with which it ends, the handlers run, and their calls are calls of the run. -/
inductive EventCall
  | create (type : EventType)
  | post (event : Option ℕ)
  | postKeyboard (type : EventType) (keycode scancode modifiers : BitVec 32) (character : BitVec 8)
      (focused : Target)
  | postMouse (type : EventType) (x y button modifiers : BitVec 32) (win : Target)
  | postWindow (type : EventType) (windowId x y width height : BitVec 32) (owner : Option (BitVec 32))
  | postSystem (type : EventType)
  | inputKeyboard (scancode : BitVec 32) (pressed : Bool) (focused : Target)
  | inputMouse (x y buttonMask deltaZ : BitVec 32) (win : ℕ → Target)
  | poll
  | free (event : Option ℕ)
  | dispatchAll
  | dispatchNext
  | dispatchDone (e : ℕ)
  | enable
  | disable

namespace Clients

variable (c : Clients)

/-- A call after which the clients hold what they held. -/
def keep (system : EventSystem) : Clients := { c with system := system }

def receive : EventSystem × Option ℕ → Clients
  | (system, none) => { c with system := system }
  | (system, some e) => { c with system := system, held := e :: c.held }

def step : EventCall → Clients
  | .create type => c.receive (c.system.eventCreate type)
  | .post event =>
    let (system, ret) := c.system.eventPost event
    { c with system := system, held := if ret = 0 then c.held.diff event.toList else c.held }
  | .postKeyboard type keycode scancode modifiers character focused =>
    c.keep (c.system.eventPostKeyboard type keycode scancode modifiers character focused).1
  | .postMouse type x y button modifiers win =>
      c.keep (c.system.eventPostMouse type x y button modifiers win).1
  | .postWindow type windowId x y width height owner =>
    c.keep (c.system.eventPostWindow type windowId x y width height owner).1
  | .postSystem type => c.keep (c.system.eventPostSystem type).1
  | .inputKeyboard scancode pressed focused =>
      c.keep (c.system.eventInputKeyboard scancode pressed focused)
  | .inputMouse x y buttonMask deltaZ win => c.keep (c.system.eventInputMouse x y buttonMask deltaZ win)
  | .poll => c.receive c.system.eventPoll
  | .free event => { c with system := c.system.eventFree event, held := c.held.diff event.toList }
  | .dispatchAll => c.keep c.system.eventDispatchAll
  | .dispatchNext =>
    let (system, event) := c.system.takePending
    { c with system := system, dispatching := event.toList ++ c.dispatching }
  | .dispatchDone e => { c with system := c.system.dispatched e, dispatching := c.dispatching.erase e }
  | .enable => c.keep c.system.eventSystemEnable
  | .disable => c.keep c.system.eventSystemDisable

end Clients

namespace EventCall

/-- What is posted or freed is held, and what has been dispatched was being dispatched. -/
def Allowed (c : Clients) : EventCall → Prop
  | post event => ∀ e ∈ event, e ∈ c.held
  | free event => ∀ e ∈ event, e ∈ c.held
  | dispatchDone e => e ∈ c.dispatching
  | _ => True

def CanPost (s : EventSystem) : Prop := s.enabled = true ∨ s.queue.freeList = []

def SameMouse (s : EventSystem) (x y buttonMask deltaZ : BitVec 32) : Prop :=
  x = s.prevMouseX ∧ y = s.prevMouseY ∧ deltaZ = 0 ∧
    ∀ i < 5, EventSystem.isPressed buttonMask i = EventSystem.isPressed s.prevButtonMask i

def Safe (c : Clients) : EventCall → Prop
  | postKeyboard .. => CanPost c.system
  | postMouse .. => CanPost c.system
  | postWindow .. => CanPost c.system
  | postSystem .. => CanPost c.system
  | inputKeyboard .. => CanPost c.system
  | inputMouse x y buttonMask deltaZ _ => CanPost c.system ∨ SameMouse c.system x y buttonMask deltaZ
  | _ => True

end EventCall

end GcAos.Events
