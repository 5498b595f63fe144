import GcAos.Events.EventSystem

/-! The event pool over every sequence of calls. -/

namespace GcAos.Events
open Lib

variable {q : EventQueue} {others others' rest : List ℕ} {e : ℕ} {s : EventSystem} {c : Clients}

structure QueueInv (q : EventQueue) (others : List ℕ) : Prop where
  places : (q.freeList ++ (q.pendingList ++ others)).Perm (List.range eventQueueSize)
  count : q.count + q.freeList.length = eventQueueSize
  fifo : q.accepted = q.left ++ q.pendingList

namespace QueueInv

theorem perm (h : QueueInv q others) (hperm : others.Perm others') : QueueInv q others' where
  places := ((hperm.symm.append_left _).append_left _).trans h.places
  count := h.count
  fifo := h.fifo

theorem alloc (h : QueueInv q others) (hfree : q.freeList = e :: rest) :
    QueueInv { q with freeList := rest, count := q.count + 1 } (e :: others) where
  places := by
    have hplaces := h.places
    rw [hfree, List.cons_append] at hplaces
    refine List.Perm.trans ?_ hplaces
    calc rest ++ (q.pendingList ++ e :: others)
      _ |>.Perm (rest ++ e :: (q.pendingList ++ others)) := List.perm_middle.append_left _
      _ |>.Perm (e :: (rest ++ (q.pendingList ++ others))) := List.perm_middle
  count := by
    have hcount := h.count
    rw [hfree, List.length_cons] at hcount
    dsimp only
    omega
  fifo := h.fifo

theorem post (h : QueueInv q (e :: others)) :
    QueueInv { q with pendingList := q.pendingList ++ [e], accepted := q.accepted ++ [e] } others where
  places := by
    dsimp only
    rw [← List.append_cons]
    exact h.places
  count := h.count
  fifo := by
    dsimp only
    rw [h.fifo, List.append_assoc]

theorem take (h : QueueInv q others) (hpending : q.pendingList = e :: rest) :
    QueueInv { q with pendingList := rest, left := q.left ++ [e] } (e :: others) where
  places := by
    have hplaces := h.places
    rw [hpending] at hplaces
    exact (List.perm_middle.append_left _).trans hplaces
  count := h.count
  fifo := by
    dsimp only
    rw [h.fifo, hpending, List.append_cons]

theorem count_pos (h : QueueInv q (e :: others)) : 0 < q.count := by
  have hlen := h.places.length_eq
  rw [List.length_append, List.length_append, List.length_cons, List.length_range] at hlen
  have hcount := h.count
  omega

theorem free (h : QueueInv q (e :: others)) :
    QueueInv { q with freeList := e :: q.freeList, count := q.count - 1 } others where
  places := by
    refine List.Perm.trans ?_ h.places
    calc e :: q.freeList ++ (q.pendingList ++ others)
      _ |>.Perm (q.freeList ++ e :: (q.pendingList ++ others)) := List.perm_middle.symm
      _ |>.Perm (q.freeList ++ (q.pendingList ++ e :: others)) := (List.perm_middle.symm).append_left _
  count := by
    have hpos := h.count_pos
    have hcount := h.count
    dsimp only
    rw [List.length_cons]
    omega
  fifo := h.fifo

theorem init : QueueInv eventSystemInit.queue [] where
  places := by
    unfold eventSystemInit
    dsimp only
    rw [List.append_nil, List.append_nil]
    exact List.reverse_perm _
  count := by rw [eventSystemInit, List.length_reverse, List.length_range, Nat.zero_add]
  fifo := rfl

end QueueInv

/-! The functions. -/

namespace EventSystem

/-- Something is written into an event, and nothing else changes but the clock. -/
def Fills (fill : EventSystem → ℕ → EventSystem) : Prop :=
  ∀ s e, (fill s e).queue = s.queue ∧ (fill s e).enabled = s.enabled

theorem eventCreate_spec (s : EventSystem) (type : EventType) (h : QueueInv s.queue others) :
    (∃ t, s.eventCreate type = (t, none) ∧ s.queue.freeList = [] ∧ t.queue = s.queue ∧
      t.enabled = s.enabled) ∨
      ∃ t e, s.eventCreate type = (t, some e) ∧ s.queue.freeList ≠ [] ∧ QueueInv t.queue (e :: others) ∧
        t.enabled = s.enabled := by
  unfold eventCreate allocEventFromPool
  cases hfree : s.queue.freeList with
  | nil => exact .inl ⟨_, rfl, rfl, rfl, rfl⟩
  | cons e rest => exact .inr ⟨_, e, rfl, List.cons_ne_nil e rest, h.alloc hfree, rfl⟩

theorem eventPost_spec (h : QueueInv s.queue (e :: others)) (henabled : s.enabled = true) :
    ∃ t, s.eventPost (some e) = (t, 0) ∧ QueueInv t.queue others ∧ t.enabled = true := by
  rw [eventPost]
  dsimp only
  rw [if_neg (by rw [henabled]; exact Bool.noConfusion)]
  exact ⟨_, rfl, h.post, henabled⟩

theorem freeEventToPool_spec (h : QueueInv s.queue (e :: others)) :
    QueueInv (s.freeEventToPool e).queue others := by
  rw [freeEventToPool]
  dsimp only
  rw [if_pos h.count_pos]
  exact h.free

theorem takePending_spec (s : EventSystem) (h : QueueInv s.queue others) :
    (s.takePending = (s, none)) ∨ ∃ t e, s.takePending = (t, some e) ∧
      QueueInv t.queue (e :: others) := by
  unfold takePending
  cases hpending : s.queue.pendingList with
  | nil => exact .inl rfl
  | cons e rest => exact .inr ⟨_, e, rfl, h.take hpending⟩

theorem postCreated_spec {type : EventType} {fill : EventSystem → ℕ → EventSystem} (hfill : Fills fill)
    (h : QueueInv s.queue others) (hsafe : EventCall.CanPost s) :
    QueueInv (s.postCreated type fill).1.queue others ∧
      EventCall.CanPost (s.postCreated type fill).1 := by
  unfold postCreated
  rcases eventCreate_spec s type h with ⟨t, ht, hfree, hqueue, -⟩ | ⟨t, e, ht, hfree, hinv, henabled⟩
  · rw [ht]
    exact ⟨hqueue ▸ h, .inr (by rw [hqueue, hfree])⟩
  · rw [ht]
    obtain ⟨hfqueue, hfenabled⟩ := hfill t e
    have hon : (fill t e).enabled = true := by
      rw [hfenabled, henabled]
      exact hsafe.resolve_right hfree
    obtain ⟨u, hu, huinv, huon⟩ := eventPost_spec (s := fill t e) (hfqueue ▸ hinv) hon
    dsimp only
    rw [hu]
    exact ⟨huinv, .inl huon⟩

theorem eventDispatchAll_spec (h : QueueInv s.queue others) :
    QueueInv s.eventDispatchAll.queue others := by
  unfold eventDispatchAll
  generalize s.queue.pendingList = l
  induction l generalizing s with
  | nil => exact h
  | cons _ l ih =>
    rw [List.foldl_cons]
    rcases takePending_spec s h with hnone | ⟨t, e, ht, hinv⟩
    · rw [hnone]
      exact ih h
    · rw [ht]
      exact ih (freeEventToPool_spec (s := { t with eventsDispatched := t.eventsDispatched + 1 }) hinv)

def Keeps (others : List ℕ) (s t : EventSystem) : Prop :=
  QueueInv s.queue others → EventCall.CanPost s → QueueInv t.queue others ∧ EventCall.CanPost t

theorem Keeps.trans {t u : EventSystem} (h : Keeps others s t) (h' : Keeps others t u) :
    Keeps others s u :=
  fun hinv hsafe => (h hinv hsafe).elim h'

theorem keeps_postCreated {type : EventType} {fill : EventSystem → ℕ → EventSystem}
    (hfill : Fills fill) :
    Keeps others s (s.postCreated type fill).1 := fun h hsafe => postCreated_spec hfill h hsafe

theorem keeps_inputButton (x y buttonMask : BitVec 32) (win : ℕ → Target) (i : ℕ) :
    Keeps others s (s.inputButton x y buttonMask win i) := by
  unfold inputButton
  split_ifs
  · exact keeps_postCreated fun _ _ => ⟨rfl, rfl⟩
  · exact keeps_postCreated fun _ _ => ⟨rfl, rfl⟩
  · exact fun h hsafe => ⟨h, hsafe⟩

theorem keeps_buttons (x y buttonMask : BitVec 32) (win : ℕ → Target) (l : List ℕ) :
    Keeps others s (l.foldl (fun s i => s.inputButton x y buttonMask win i) s) := by
  induction l generalizing s with
  | nil => exact fun h hsafe => ⟨h, hsafe⟩
  | cons i l ih => exact (keeps_inputButton x y buttonMask win i).trans ih

theorem keeps_inputMove (x y : BitVec 32) : Keeps others s (s.inputMove x y) := by
  unfold inputMove
  split_ifs
  · exact keeps_postCreated fun _ _ => ⟨rfl, rfl⟩
  · exact fun h hsafe => ⟨h, hsafe⟩

theorem keeps_inputScroll (x y deltaZ : BitVec 32) : Keeps others s (s.inputScroll x y deltaZ) := by
  unfold inputScroll
  split_ifs
  · exact keeps_postCreated fun _ _ => ⟨rfl, rfl⟩
  · exact fun h hsafe => ⟨h, hsafe⟩

theorem eventInputMouse_same {x y buttonMask deltaZ : BitVec 32} (win : ℕ → Target)
    (h : EventCall.SameMouse s x y buttonMask deltaZ) :
    (s.eventInputMouse x y buttonMask deltaZ win).queue = s.queue := by
  obtain ⟨rfl, rfl, rfl, hbuttons⟩ := h
  have hmove : s.inputMove s.prevMouseX s.prevMouseY = s := if_neg (by simp)
  have hbutton : ∀ l : List ℕ, (∀ i ∈ l, i < 5) →
      l.foldl (fun s' i => s'.inputButton s.prevMouseX s.prevMouseY buttonMask win i) s = s := by
    intro l hl
    induction l with
    | nil => rfl
    | cons i l ih =>
      obtain ⟨hi, hl⟩ := List.forall_mem_cons.mp hl
      have hsame : s.inputButton s.prevMouseX s.prevMouseY buttonMask win i = s := by
        rw [inputButton, hbuttons i hi, if_neg (by simp), if_neg (by simp)]
      rw [List.foldl_cons, hsame]
      exact ih hl
  have hscroll : s.inputScroll s.prevMouseX s.prevMouseY 0 = s := if_neg (by simp)
  have hquiet : ((List.range 5).foldl (fun s' i =>
      s'.inputButton s.prevMouseX s.prevMouseY buttonMask win i)
      (s.inputMove s.prevMouseX s.prevMouseY)).inputScroll s.prevMouseX s.prevMouseY 0 = s := by
    rw [hmove, hbutton _ fun i hi => List.mem_range.mp hi, hscroll]
  unfold eventInputMouse
  dsimp only
  rw [hquiet]

theorem eventInputMouse_spec {x y buttonMask deltaZ : BitVec 32} (win : ℕ → Target)
    (h : QueueInv s.queue others)
    (hsafe : EventCall.CanPost s ∨ EventCall.SameMouse s x y buttonMask deltaZ) :
    QueueInv (s.eventInputMouse x y buttonMask deltaZ win).queue others := by
  rcases hsafe with hsafe | hsame
  · have hkeeps : Keeps others s
        ((((List.range 5).foldl (fun s i => s.inputButton x y buttonMask win i)
          (s.inputMove x y))).inputScroll x y
          deltaZ) :=
      ((keeps_inputMove x y).trans (keeps_buttons x y buttonMask win _)).trans
        (keeps_inputScroll x y deltaZ)
    exact (hkeeps h hsafe).1
  · rw [eventInputMouse_same win hsame]
    exact h

end EventSystem

/-! The calls. -/

def PoolInv (c : Clients) : Prop := QueueInv c.system.queue (c.held ++ c.dispatching)

namespace PoolInv

open EventSystem

theorem receive {r : EventSystem × Option ℕ} (h : PoolInv c)
    (hr : (∃ t : EventSystem, r = (t, none) ∧ t.queue = c.system.queue) ∨
      ∃ t e, r = (t, some e) ∧ QueueInv t.queue (e :: (c.held ++ c.dispatching))) :
        PoolInv (c.receive r) := by
  rcases hr with ⟨t, rfl, hqueue⟩ | ⟨t, e, rfl, hinv⟩
  · unfold PoolInv Clients.receive
    rw [hqueue]
    exact h
  · exact hinv

theorem held_perm (he : e ∈ c.held) :
    (c.held ++ c.dispatching).Perm (e :: (c.held.diff [e] ++ c.dispatching)) := by
  rw [List.diff_cons, List.diff_nil]
  exact (List.perm_cons_erase he).append_right _

theorem step (h : PoolInv c) {call : EventCall} (hallowed : call.Allowed c) (hsafe : call.Safe c) :
    PoolInv (c.step call) := by
  cases call with
  | create type =>
    refine h.receive ?_
    rcases eventCreate_spec c.system type h with ⟨t, ht, -, hqueue, -⟩ | ⟨t, e, ht, -, hinv, -⟩
    · exact .inl ⟨t, ht, hqueue⟩
    · exact .inr ⟨t, e, ht, hinv⟩
  | post event =>
    cases event with
    | none => exact h
    | some e =>
      by_cases henabled : c.system.enabled = true
      · obtain ⟨t, ht, hinv, -⟩ := eventPost_spec (h.perm (held_perm (hallowed e rfl))) henabled
        unfold PoolInv Clients.step
        dsimp only
        rw [ht]
        exact hinv
      · have hpost : c.system.eventPost (some e) = (c.system, -1) := by
          rw [eventPost]
          exact if_pos (Bool.eq_false_of_not_eq_true henabled)
        unfold PoolInv Clients.step
        dsimp only
        rw [hpost]
        exact h
  | postKeyboard =>
    refine (postCreated_spec (s := c.system) ?_ h hsafe).1
    exact fun _ _ => ⟨rfl, rfl⟩
  | postMouse =>
    refine (postCreated_spec (s := c.system) ?_ h hsafe).1
    exact fun _ _ => ⟨rfl, rfl⟩
  | postWindow =>
    refine (postCreated_spec (s := c.system) ?_ h hsafe).1
    exact fun _ _ => ⟨rfl, rfl⟩
  | postSystem =>
    refine (postCreated_spec (s := c.system) ?_ h hsafe).1
    exact fun _ _ => ⟨rfl, rfl⟩
  | inputKeyboard =>
    refine (postCreated_spec (s := c.system) ?_ h hsafe).1
    exact fun _ _ => ⟨rfl, rfl⟩
  | inputMouse x y buttonMask deltaZ win => exact eventInputMouse_spec win h hsafe
  | poll =>
    refine h.receive ?_
    rcases takePending_spec c.system h with hnone | ⟨t, e, ht, hinv⟩
    · exact .inl ⟨c.system, hnone, rfl⟩
    · exact .inr ⟨t, e, ht, hinv⟩
  | free event =>
    cases event with
    | none => exact h
    | some e => exact freeEventToPool_spec (h.perm (held_perm (hallowed e rfl)))
  | dispatchAll => exact eventDispatchAll_spec h
  | dispatchNext =>
    unfold PoolInv Clients.step
    dsimp only
    rcases takePending_spec c.system h with hnone | ⟨t, e, ht, hinv⟩
    · rw [hnone]
      exact h
    · rw [ht]
      exact hinv.perm List.perm_middle.symm
  | dispatchDone e =>
    have hperm : (c.held ++ c.dispatching).Perm (e :: (c.held ++ c.dispatching.erase e)) :=
      ((List.perm_cons_erase hallowed).append_left _).trans List.perm_middle
    exact freeEventToPool_spec (s := { c.system with eventsDispatched :=
      c.system.eventsDispatched + 1 })
      (h.perm hperm)
  | enable => exact h
  | disable => exact h

end PoolInv

structure Conserved (c : Clients) : Prop where
  places : (c.system.queue.freeList ++ (c.system.queue.pendingList ++ (c.held ++ c.dispatching))).Perm
    (List.range eventQueueSize)
  total : c.system.queue.freeList.length + c.system.queue.pendingList.length +
    (c.held.length + c.dispatching.length) = eventQueueSize
  count : c.system.queue.count = eventQueueSize - c.system.queue.freeList.length
  fifo : c.system.queue.accepted = c.system.queue.left ++ c.system.queue.pendingList

theorem PoolInv.conserved (h : PoolInv c) : Conserved c where
  places := h.places
  total := by
    have hlen := h.places.length_eq
    rw [List.length_append, List.length_append, List.length_append, List.length_range] at hlen
    omega
  count := by
    have hcount := h.count
    omega
  fifo := h.fifo

theorem events_conserved {calls : List EventCall}
    (hcalls : Meets (fun c call => some (c.step call)) (fun c call => call.Allowed c ∧ call.Safe c)
      {} calls) :
    Conserved (calls.foldl Clients.step {}) := by
  obtain ⟨c, hrun, hinv⟩ := hcalls.foldlM (I := fun _ => PoolInv) (N := calls.length) (k := 0)
    (fun k c call _ hc hcall => ⟨_, rfl, hc.step hcall.1 hcall.2⟩) QueueInv.init (by omega)
  have hfold : calls.foldlM (fun c call => some (Clients.step c call)) {} =
      some (calls.foldl Clients.step {}) :=
    List.foldlM_pure
  rw [Option.some.inj (hfold.symm.trans hrun)]
  exact hinv.conserved

theorem events_conserved_key : Conserved ([EventCall.disable, .inputMouse 0 0 0 0 (fun _ => none),
    .enable,
    .postKeyboard eventKeyDown 97 0x1E 0 97 none, .dispatchAll, .poll].foldl Clients.step {}) := by
  refine events_conserved ⟨⟨trivial, trivial⟩, fun t ht => ?_⟩
  obtain rfl := Option.some.inj ht
  refine ⟨⟨trivial, .inr ⟨rfl, rfl, rfl, fun _ _ => rfl⟩⟩, fun t ht => ?_⟩
  obtain rfl := Option.some.inj ht
  refine ⟨⟨trivial, trivial⟩, fun t ht => ?_⟩
  obtain rfl := Option.some.inj ht
  refine ⟨⟨trivial, .inl rfl⟩, fun t ht => ?_⟩
  obtain rfl := Option.some.inj ht
  refine ⟨⟨trivial, trivial⟩, fun t ht => ?_⟩
  obtain rfl := Option.some.inj ht
  exact ⟨⟨trivial, trivial⟩, fun t ht => trivial⟩

/-- An event that is created while the system is disabled is neither posted nor freed. -/
theorem disabled_post_leaks :
    let c := [EventCall.disable, .postSystem 21].foldl Clients.step {}
    c.system.queue.freeList.length = eventQueueSize - 1 ∧ c.system.queue.pendingList = [] ∧
      c.held = [] ∧
      c.dispatching = [] := by
  decide +kernel

end GcAos.Events
