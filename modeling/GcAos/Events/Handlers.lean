import GcAos.Events.EventSystem
import GcAos.Lib.CInt
import GcAos.Lib.ListHead

/-! The event handlers of `kernel/core/event_system.c` and the dispatch of an event to them. -/

namespace GcAos.Events
open Lib

def eventUser : EventType := 1000

/-- `(event_type_t)-1` -/
def catchAll : EventType := 2 ^ 32 - 1

/-- The `list_head`s, where an entry is the address that `kmalloc` returned for it. -/
inductive HandlerNode
  | null
  | handlers
  | typeHandlers (type : EventType)
  | entry (a : ℕ)
  deriving DecidableEq

/-- `event_handler_entry_t`, without the list node. A function is its address. -/
structure HandlerEntry where
  type : EventType
  handler : ℕ
  userData : ℕ
  priority : ℤ

/-- The part of `g_event_system` that is about handlers, with the entries that are allocated. -/
structure Handlers where
  links : ListHeads HandlerNode
  entries : ℕ → Option HandlerEntry := fun _ => none

/-- What handlers and the router can change: all but the lists. -/
structure World (ε : Type*) where
  system : EventSystem
  router : ℕ
  rest : ε

/-- What the functions do to which the addresses lead, called for an event. -/
structure Code (ε : Type*) where
  handler : ℕ → ℕ → ℕ → World ε → World ε × ℤ
  router : ℕ → ℕ → World ε → World ε × ℤ

/-- `event->type` of an event of the pool, which is zeroed at first. -/
def EventSystem.typeOf (s : EventSystem) (e : ℕ) : EventType := ((s.events e).map Event.type).getD 0

/-- Where the loops of `event_dispatch` are, with the calls made so far and what they returned. -/
structure Dispatching (ε : Type*) where
  world : World ε
  calls : List (ℕ × ℤ) := []
  handled : Bool := false

def headOf (type : EventType) : Option HandlerNode :=
  if type = catchAll then some .handlers
  else if type < eventUser then some (.typeHandlers type)
  else none

/-- `event_system_init`, as far as the handlers go. -/
def handlersInit : Handlers where
  links := (List.range eventUser).foldl (fun m i => m.initListHead (.typeHandlers i))
    ((⟨fun _ => .null, fun _ => .null⟩ : ListHeads HandlerNode).initListHead .handlers)

namespace Handlers

variable (s : Handlers)

def setEntry (a : ℕ) (entry : Option HandlerEntry) : Handlers :=
  { s with entries := Function.update s.entries a entry }

def entryAt : HandlerNode → Option (ℕ × HandlerEntry)
  | .entry a => (s.entries a).map (a, ·)
  | _ => none

/-- The loop of `event_register_handler` from `pos` on, in at most `n` turns. The result is the node in
front of which the entry is added. -/
def insertionPoint (priority : ℤ) (head : HandlerNode) : ℕ → HandlerNode → Option HandlerNode
  | 0, _ => none
  | n + 1, pos =>
    if pos = head then some head
    else
      match s.entryAt pos with
      | none => none
      | some (_, entry) =>
        if entry.priority < priority then some pos
        else insertionPoint priority head n (s.links.next pos)

/-- `mem` is what `kmalloc` returns. -/
def eventRegisterHandler (n : ℕ) (type : EventType) (handler userData : ℕ) (priority : ℤ)
    (mem : Option ℕ) : Option (Handlers × ℤ) :=
  if handler = 0 then some (s, -1)
  else
    match mem with
    | none => some (s, -2)
    | some a =>
      let s := s.setEntry a (some ⟨type, handler, userData, priority⟩)
      let s := { s with links := s.links.initListHead (.entry a) }
      match headOf type with
      | none => some (s.setEntry a none, -3)
      | some head =>
        match s.insertionPoint priority head n (s.links.next head) with
        | none => none
        | some pos => some ({ s with links := s.links.listAddTail (.entry a) pos }, toInt a)

/-- The address is what the identifier is as a `uintptr_t`. -/
def eventUnregisterHandler (handlerId : ℤ) : Handlers × ℤ :=
  if handlerId = 0 then (s, -1)
  else
    let a := (handlerId % 2 ^ 64).toNat
    ({ s with links := s.links.listDel .null (.entry a) }.setEntry a none, 0)

section Dispatch

variable {ε : Type*} (code : Code ε)

/-- A loop of `event_dispatch` from `pos` on, in at most `n` turns. The handlers that `wanted` is true of
are called. -/
def callHandlers (e : ℕ) (head : HandlerNode) (wanted : World ε → HandlerEntry → Bool) :
    ℕ → HandlerNode → Dispatching ε → Option (Dispatching ε)
  | 0, _, _ => none
  | n + 1, pos, d =>
    if pos = head then some d
    else
      match s.entryAt pos with
      | none => none
      | some (a, entry) =>
        if wanted d.world entry then
          let (world, ret) := code.handler entry.handler e entry.userData d.world
          let calls := d.calls ++ [(a, ret)]
          if ret = 0 then some ⟨world, calls, true⟩
          else callHandlers e head wanted n (s.links.next pos) { d with world := world, calls := calls }
        else callHandlers e head wanted n (s.links.next pos) d

def callTypeHandlers (e n : ℕ) (d : Dispatching ε) : Option (Dispatching ε) :=
  let type := d.world.system.typeOf e
  if d.handled = false ∧ type < eventUser then
    s.callHandlers code e (.typeHandlers type) (fun _ _ => true) n
      (s.links.next (.typeHandlers type)) d
  else some d

def callRouter (e : ℕ) (d : Dispatching ε) : World ε :=
  if d.handled = false ∧ d.world.router ≠ 0 then (code.router d.world.router e d.world).1 else d.world

/-- The second result is the calls of handlers. -/
def eventDispatch (n : ℕ) (event : Option ℕ) (world : World ε) :
    Option (World ε × List (ℕ × ℤ)) :=
  match event with
  | none => some (world, [])
  | some e =>
    let wanted := fun (world : World ε) (entry : HandlerEntry) =>
      entry.type = catchAll ∨ entry.type = world.system.typeOf e
    match s.callHandlers code e .handlers (fun world entry => decide (wanted world entry)) n
      (s.links.next .handlers) ⟨world, [], false⟩ with
    | none => none
    | some d =>
      match s.callTypeHandlers code e n d with
      | none => none
      | some d =>
        let world := callRouter code e d
        some ({ world with system := world.system.dispatched e }, d.calls)

end Dispatch

end Handlers

/-! The clients of the handlers. -/

/-- The handlers that are registered, each with the number of the call it came from and with what was
passed there. -/
structure Registry where
  handlers : Handlers := handlersInit
  calls : ℕ := 0
  registered : ℕ → Option (ℕ × HandlerEntry) := fun _ => none

inductive HandlerCall
  | register (type : EventType) (handler userData : ℕ) (priority : ℤ) (mem : Option ℕ)
  | unregister (handlerId : ℤ)

namespace Registry

variable (r : Registry)

/-- A handler gets the number of the calls before its registration. -/
def step (n : ℕ) : HandlerCall → Option Registry
  | .register type handler userData priority mem =>
    match r.handlers.eventRegisterHandler n type handler userData priority mem with
    | none => none
    | some (handlers, ret) =>
      let entry : HandlerEntry := ⟨type, handler, userData, priority⟩
      let registered :=
        if 0 < ret then Function.update r.registered ret.toNat (some (r.calls, entry)) else r.registered
      some ⟨handlers, r.calls + 1, registered⟩
  | .unregister handlerId =>
    let (handlers, ret) := r.handlers.eventUnregisterHandler handlerId
    let registered :=
      if ret = 0 then Function.update r.registered handlerId.toNat none else r.registered
    some ⟨handlers, r.calls + 1, registered⟩

/-- New addresses are below `2 ^ 31`, and identifiers are those of registered handlers. -/
def Allowed : HandlerCall → Prop
  | .register _ _ _ _ mem => ∀ a ∈ mem, 0 < a ∧ a < 2 ^ 31 ∧ r.registered a = none
  | .unregister handlerId => handlerId = 0 ∨ 0 < handlerId ∧ (r.registered handlerId.toNat).isSome

end Registry

end GcAos.Events
