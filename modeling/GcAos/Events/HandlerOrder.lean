import GcAos.Events.Handlers
import GcAos.Lib.Exec

/-! The order of the handlers in their lists, and the order of their calls. -/

namespace GcAos.Events
open Lib

/-- Among the registered handlers, `a` comes before `b`: its priority is higher, or the same and it was
registered earlier. -/
def Registry.Before (r : Registry) (a b : ℕ) : Prop :=
  ∃ p ∈ r.registered a, ∃ q ∈ r.registered b,
    q.2.priority < p.2.priority ∨ p.2.priority = q.2.priority ∧ p.1 < q.1

structure Registry.InOrder (r : Registry) (types : EventType → Prop) (l : List ℕ) : Prop where
  mem : ∀ a, a ∈ l ↔ ∃ p ∈ r.registered a, types p.2.type
  sorted : l.Pairwise r.Before

/-- A call of the registry that returns, as it is allowed to be made. -/
def Registry.Step (r : Registry) (call : HandlerCall) (r' : Registry) : Prop :=
  r.Allowed call ∧ ∃ N, ∀ n ≥ N, r.step n call = some r'

section Dispatch

variable {ε : Type*} (code : Code ε)

def Registry.Called (r : Registry) (e : ℕ) (w : World ε) (c : ℕ × ℤ) (w' : World ε) : Prop :=
  ∃ p ∈ r.registered c.1, code.handler p.2.handler e p.2.userData w = (w', c.2)

/-- The calls go through the list up to the first that returns 0. -/
structure InTurn (calls : List (ℕ × ℤ)) (l : List ℕ) : Prop where
  order : calls.map Prod.fst <+: l
  nonzero : ∀ c ∈ calls.dropLast, c.2 ≠ 0
  all : (∀ c ∈ calls, c.2 ≠ 0) → calls.map Prod.fst = l

/-- The calls of `event_dispatch`, which lead from `w` to `w₂`: of the handlers for all events, and if none
of these has returned 0, of those for the type that the event then has. -/
def Registry.CallsOk (r : Registry) (e : ℕ) (w : World ε) (calls : List (ℕ × ℤ)) (w₂ : World ε) :
    Prop :=
  ∃ first second w₁, calls = first ++ second ∧
    Exec (r.Called code e) w first w₁ ∧ Exec (r.Called code e) w₁ second w₂ ∧
    (∃ l, r.InOrder (· = catchAll) l ∧ InTurn first l) ∧
    ((∃ c ∈ first, c.2 = 0) → second = []) ∧
    ((∀ c ∈ first, c.2 ≠ 0) → ∃ l,
      r.InOrder (fun t => t = w₁.system.typeOf e ∧ t ≠ catchAll) l ∧ InTurn second l)

/-- The rest of `event_dispatch`: the router is called when no handler has returned 0, and then the event
goes back to the pool. -/
def Finishes (e : ℕ) (calls : List (ℕ × ℤ)) (w w' : World ε) : Prop :=
  ∃ w₃ : World ε, w'.system.queue.freeList = e :: w₃.system.queue.freeList ∧
    ((∃ c ∈ calls, c.2 = 0) → w₃ = w) ∧
    ((∀ c ∈ calls, c.2 ≠ 0) → w₃ = if w.router = 0 then w else (code.router w.router e w).1)

end Dispatch

structure Registry.Ok (r : Registry) : Prop where
  lists : ∀ type head, headOf type = some head → ∃ l : List ℕ,
    r.handlers.links.Circular head (l.map .entry) ∧ r.InOrder (· = type) l
  returns : ∀ call, r.Allowed call → ∃ r', r.Step call r'
  registers : ∀ type head handler userData priority a, headOf type = some head → handler ≠ 0 →
    r.Allowed (.register type handler userData priority (some a)) →
      ∃ (handlers : Handlers) (l : List ℕ), (∃ N, ∀ n ≥ N,
        r.handlers.eventRegisterHandler n type handler userData priority (some a) =
          some (handlers, (a : ℤ))) ∧
        handlers.links.Circular head (l.map .entry) ∧ a ∈ l
  dispatch : ∀ {ε : Type} (code : Code ε) (e : ℕ) (w : World ε), ∃ w₂ w' calls,
    (∃ N, ∀ n ≥ N, r.handlers.eventDispatch code n (some e) w = some (w', calls)) ∧
      r.CallsOk code e w calls w₂ ∧ Finishes code e calls w₂ w'

variable {s : Handlers} {r r' : Registry} {type : EventType} {head x : HandlerNode} {priority : ℤ}
variable {l : List ℕ} {n a : ℕ}

/-! ## The types and their lists -/

theorem headOf_catchAll : headOf catchAll = some .handlers := if_pos rfl

theorem headOf_of_lt (h : type < eventUser) : headOf type = some (.typeHandlers type) := by
  have hne : type ≠ catchAll := ne_of_lt (h.trans (by decide))
  rw [headOf, if_neg hne, if_pos h]

theorem headOf_eq (h : headOf type = some head) :
    (type = catchAll ∧ head = .handlers) ∨ (type < eventUser ∧ head = .typeHandlers type) := by
  unfold headOf at h
  by_cases hall : type = catchAll
  · rw [if_pos hall] at h
    exact .inl ⟨hall, (Option.some.inj h).symm⟩
  rw [if_neg hall] at h
  by_cases hlt : type < eventUser
  · rw [if_pos hlt] at h
    exact .inr ⟨hlt, (Option.some.inj h).symm⟩
  · rw [if_neg hlt] at h
    exact absurd h (by simp)

theorem headOf_inj {type' : EventType} (h : headOf type = some head) (h' : headOf type' = some head) :
    type = type' := by
  rcases headOf_eq h with ⟨rfl, rfl⟩ | ⟨-, rfl⟩ <;> rcases headOf_eq h' with ⟨rfl, heq⟩ | ⟨-, heq⟩
  · rfl
  · exact absurd heq (by simp)
  · exact absurd heq (by simp)
  · exact HandlerNode.typeHandlers.inj heq

theorem headOf_ne_entry (h : headOf type = some head) (a : ℕ) : head ≠ .entry a := by
  rcases headOf_eq h with ⟨-, rfl⟩ | ⟨-, rfl⟩ <;> exact HandlerNode.noConfusion

/-! ## The loops -/

theorem Handlers.entryAt_entry {entry : HandlerEntry} (h : s.entries a = some entry) :
    s.entryAt (.entry a) = some (a, entry) := by
  rw [Handlers.entryAt, h, Option.map_some]

theorem Handlers.insertionPoint_spec (hpath : Path s.links.next x (l.map .entry) head)
    (hhead : ∀ a, head ≠ .entry a) (hentry : ∀ a ∈ l, (s.entries a).isSome) (priority : ℤ) :
    ∃ xs ys, l = xs ++ ys ∧ (∀ a ∈ xs, ∀ entry ∈ s.entries a, priority ≤ entry.priority) ∧
      (∀ a ∈ ys.head?, ∀ entry ∈ s.entries a, entry.priority < priority) ∧
      ∀ n > l.length,
        s.insertionPoint priority head n (s.links.next x) = some ((ys.map .entry).headD head) := by
  induction l generalizing x with
  | nil =>
    have hnext : s.links.next x = head := hpath
    refine ⟨[], [], rfl, by simp, by simp, fun n hn => ?_⟩
    obtain ⟨n, rfl⟩ := Nat.exists_eq_add_of_lt hn
    rw [hnext, insertionPoint, if_pos rfl]
    rfl
  | cons a l ih =>
    obtain ⟨hnext, hpath⟩ := hpath
    obtain ⟨entry, hent⟩ := Option.isSome_iff_exists.mp (hentry a List.mem_cons_self)
    have hturn (n : ℕ) : s.insertionPoint priority head (n + 1) (s.links.next x) =
        if entry.priority < priority then some (.entry a)
        else s.insertionPoint priority head n (s.links.next (.entry a)) := by
      rw [hnext, insertionPoint, if_neg (hhead a).symm, entryAt_entry hent]
    by_cases hlt : entry.priority < priority
    · refine ⟨[], a :: l, rfl, by simp, fun b hb e he => ?_, fun n hn => ?_⟩
      · obtain rfl : a = b := Option.some.inj hb
        obtain rfl : entry = e := Option.some.inj (hent.symm.trans he)
        exact hlt
      · obtain ⟨n, rfl⟩ := Nat.exists_eq_add_of_lt hn
        rw [hturn, if_pos hlt]
        rfl
    · obtain ⟨xs, ys, rfl, hxs, hys, hpoint⟩ :=
        ih hpath fun b hb => hentry b (List.mem_cons_of_mem a hb)
      refine ⟨a :: xs, ys, rfl, fun b hb e he => ?_, hys, fun n hn => ?_⟩
      · rcases List.mem_cons.mp hb with rfl | hb
        · obtain rfl : entry = e := Option.some.inj (hent.symm.trans he)
          exact not_lt.mp hlt
        · exact hxs b hb e he
      · obtain ⟨n, rfl⟩ : ∃ m, n = m + 1 := ⟨n - 1, by omega⟩
        rw [hturn, if_neg hlt]
        exact hpoint n (Nat.lt_of_succ_lt_succ hn)

theorem InTurn.nil : InTurn [] [] := ⟨List.prefix_rfl, by simp, fun _ => rfl⟩

theorem InTurn.stop (a : ℕ) (l : List ℕ) : InTurn [(a, 0)] (a :: l) where
  order := List.prefix_iff_eq_append.mpr rfl
  nonzero := by simp
  all h := absurd rfl (h (a, 0) List.mem_cons_self)

theorem InTurn.cons {ret : ℤ} {calls : List (ℕ × ℤ)} (hret : ret ≠ 0) (h : InTurn calls l) :
    InTurn ((a, ret) :: calls) (a :: l) where
  order := (List.prefix_cons_inj a).mpr h.order
  nonzero := by
    cases calls with
    | nil => simp
    | cons c calls =>
      rw [List.dropLast_cons_cons]
      exact List.forall_mem_cons.mpr ⟨hret, h.nonzero⟩
  all hall := congrArg (a :: ·) (h.all fun c hc => hall c (List.mem_cons_of_mem _ hc))

theorem Handlers.callHandlers_spec {ε : Type} (code : Code ε) (e : ℕ)
    (wanted : World ε → HandlerEntry → Bool) {d : Dispatching ε}
    (hpath : Path r.handlers.links.next x (l.map .entry) head) (hhead : ∀ a, head ≠ .entry a)
    (hentry : ∀ a ∈ l, ∃ p ∈ r.registered a, r.handlers.entries a = some p.2 ∧
      ∀ w, wanted w p.2 = true) (hd : d.handled = false) :
    ∃ d' calls, (∀ n > l.length,
      r.handlers.callHandlers code e head wanted n (r.handlers.links.next x) d = some d') ∧
      d'.calls = d.calls ++ calls ∧ Exec (r.Called code e) d.world calls d'.world ∧
      InTurn calls l ∧ (d'.handled = true ↔ ∃ c ∈ calls, c.2 = 0) := by
  induction l generalizing x d with
  | nil =>
    have hnext : r.handlers.links.next x = head := hpath
    refine ⟨d, [], fun n hn => ?_, (List.append_nil _).symm, .nil _, .nil, by simp [hd]⟩
    obtain ⟨n, rfl⟩ := Nat.exists_eq_add_of_lt hn
    rw [hnext, callHandlers, if_pos rfl]
  | cons a l ih =>
    obtain ⟨hnext, hpath⟩ := hpath
    obtain ⟨p, hp, hent, hwanted⟩ := hentry a List.mem_cons_self
    let w := (code.handler p.2.handler e p.2.userData d.world).1
    let ret := (code.handler p.2.handler e p.2.userData d.world).2
    have hturn (n : ℕ) :
        r.handlers.callHandlers code e head wanted (n + 1) (r.handlers.links.next x) d =
          if ret = 0 then some ⟨w, d.calls ++ [(a, ret)], true⟩
          else r.handlers.callHandlers code e head wanted n (r.handlers.links.next (.entry a))
            { d with world := w, calls := d.calls ++ [(a, ret)] } := by
      rw [hnext, callHandlers, if_neg (hhead a).symm, entryAt_entry hent]
      exact if_pos (hwanted _)
    by_cases hret : ret = 0
    · refine ⟨⟨w, d.calls ++ [(a, 0)], true⟩, [(a, 0)], fun n hn => ?_, rfl,
        .cons ⟨p, hp, ?_⟩ (.nil _), .stop a l, by simp⟩
      · obtain ⟨n, rfl⟩ := Nat.exists_eq_add_of_lt hn
        rw [hturn, if_pos hret, hret]
      · exact Prod.ext rfl hret
    · obtain ⟨d', calls, hrun, hcalls, hexec, hall, hhandled⟩ :=
        ih (d := { d with world := w, calls := d.calls ++ [(a, ret)] }) hpath
          (fun b hb => hentry b (List.mem_cons_of_mem a hb)) hd
      refine ⟨d', (a, ret) :: calls, fun n hn => ?_, ?_, .cons ⟨p, hp, rfl⟩ hexec, hall.cons hret, ?_⟩
      · obtain ⟨n, rfl⟩ : ∃ m, n = m + 1 := ⟨n - 1, by omega⟩
        rw [hturn, if_neg hret]
        exact hrun n (Nat.lt_of_succ_lt_succ hn)
      · rw [hcalls, List.append_assoc, List.singleton_append]
      · rw [hhandled, List.exists_mem_cons_iff]
        exact (or_iff_right hret).symm

theorem EventSystem.dispatched_freeList (s : EventSystem) (e : ℕ) :
    (s.dispatched e).queue.freeList = e :: s.queue.freeList := by
  unfold dispatched eventFree freeEventToPool
  dsimp only
  split <;> rfl

/-! ## The lists over registrations -/

namespace Registry

structure Holds (r : Registry) (head : HandlerNode) (l : List ℕ) : Prop where
  ring : r.handlers.links.Circular head (l.map .entry)
  mem : ∀ a, a ∈ l ↔ ∃ p ∈ r.registered a, headOf p.2.type = some head
  sorted : l.Pairwise r.Before

structure Inv (r : Registry) (q : HandlerNode → List ℕ) : Prop where
  holds : ∀ type head, headOf type = some head → r.Holds head (q head)
  entry : ∀ a, ∀ p ∈ r.registered a, r.handlers.entries a = some p.2 ∧
    (∃ head, headOf p.2.type = some head) ∧ 0 < a ∧ a < 2 ^ 31 ∧ p.1 < r.calls

variable {q : HandlerNode → List ℕ} {head' : HandlerNode} {xs ys : List ℕ}

theorem Holds.inOrder (h : r.Holds head l) (hhead : headOf type = some head) :
    r.InOrder (· = type) l where
  mem a := by
    rw [h.mem]
    refine exists_congr fun p => and_congr_right fun _ => ⟨fun hp => headOf_inj hp hhead, ?_⟩
    rintro rfl
    exact hhead
  sorted := h.sorted

theorem Inv.holds_entry (hi : r.Inv q) (hhead : headOf type = some head) (ha : a ∈ q head) :
    ∃ p ∈ r.registered a, headOf p.2.type = some head ∧ r.handlers.entries a = some p.2 := by
  obtain ⟨p, hp, hph⟩ := ((hi.holds type head hhead).mem a).mp ha
  exact ⟨p, hp, hph, (hi.entry a p hp).1⟩

theorem Inv.notMem_other (hi : r.Inv q) {type' : EventType} (hhead : headOf type = some head)
    (hhead' : headOf type' = some head') (hne : head' ≠ head) {y : HandlerNode}
    (hy : y ∈ head' :: (q head').map .entry) : y ∉ head :: (q head).map .entry := by
  rcases List.mem_cons.mp hy with rfl | hy
  · rw [List.mem_cons, List.mem_map]
    rintro (heq | ⟨a, -, heq⟩)
    · exact hne heq
    · exact headOf_ne_entry hhead' a heq.symm
  · obtain ⟨a, ha, rfl⟩ := List.mem_map.mp hy
    rw [List.mem_cons, List.mem_map]
    rintro (heq | ⟨b, hb, heq⟩)
    · exact headOf_ne_entry hhead a heq.symm
    · obtain rfl : b = a := HandlerNode.entry.inj heq
      obtain ⟨p, hp, hph, -⟩ := hi.holds_entry hhead hb
      obtain ⟨p', hp', hph', -⟩ := hi.holds_entry hhead' ha
      obtain rfl : p = p' := Option.some.inj (hp.symm.trans hp')
      exact hne (Option.some.inj (hph'.symm.trans hph))

theorem Before.congr {b : ℕ} (h : r.Before a b) (ha : r'.registered a = r.registered a)
    (hb : r'.registered b = r.registered b) : r'.Before a b := by
  unfold Before at h ⊢
  rwa [ha, hb]

theorem Holds.keep (h : r.Holds head l)
    (hlinks : ∀ y ∈ head :: l.map HandlerNode.entry,
      r'.handlers.links.next y = r.handlers.links.next y ∧
        r'.handlers.links.prev y = r.handlers.links.prev y)
    (hother : ∀ b ≠ a, r'.registered b = r.registered b) (hout : a ∉ l)
    (hnew : ∀ p ∈ r'.registered a, headOf p.2.type ≠ some head) : r'.Holds head l where
  ring := h.ring.congr (fun y hy => (hlinks y hy).1) fun y hy => (hlinks y hy).2
  mem b := by
    by_cases hb : b = a
    · subst hb
      exact iff_of_false hout fun ⟨p, hp, hph⟩ => hnew p hp hph
    · rw [h.mem, hother b hb]
  sorted := h.sorted.imp_of_mem fun hb hc hbefore =>
    hbefore.congr (hother _ fun heq => hout (heq ▸ hb)) (hother _ fun heq => hout (heq ▸ hc))

theorem Inv.noop (hi : r.Inv q) (hr : r'.handlers = r.handlers) (hreg : r'.registered = r.registered)
    (hcalls : r'.calls = r.calls + 1) : r'.Inv q where
  holds type head hhead := by
    obtain ⟨hring, hmem, hsorted⟩ := hi.holds type head hhead
    refine ⟨hr ▸ hring, fun a => hreg ▸ hmem a, hsorted.imp fun hb => ?_⟩
    exact hb.congr (congrFun hreg _) (congrFun hreg _)
  entry a p hp := by
    obtain ⟨hent, hhead, hpos, hlt, hcall⟩ := hi.entry a p (hreg ▸ hp)
    exact ⟨hr ▸ hent, hhead, hpos, hlt, hcalls ▸ hcall.trans (Nat.lt_succ_self _)⟩

theorem sorted_insert {p : ℕ × HandlerEntry} (hsorted : (xs ++ ys).Pairwise r.Before)
    (ha : r.registered a = some p) (hmem : ∀ b ∈ xs ++ ys, ∃ c ∈ r.registered b, c.1 < p.1)
    (hxs : ∀ b ∈ xs, ∀ c ∈ r.registered b, p.2.priority ≤ c.2.priority)
    (hys : ∀ b ∈ ys.head?, ∀ c ∈ r.registered b, c.2.priority < p.2.priority) :
    (xs ++ a :: ys).Pairwise r.Before := by
  obtain ⟨hsx, hsy, hcross⟩ := List.pairwise_append.mp hsorted
  have hbefore : ∀ b ∈ xs, r.Before b a := by
    intro b hb
    obtain ⟨c, hc, hlt⟩ := hmem b (List.mem_append_left ys hb)
    refine ⟨c, hc, p, ha, ?_⟩
    rcases (hxs b hb c hc).lt_or_eq with h | h
    · exact .inl h
    · exact .inr ⟨h.symm, hlt⟩
  have hafter : ∀ b ∈ ys, r.Before a b := by
    intro b hb
    obtain ⟨c, hc, -⟩ := hmem b (List.mem_append_right xs hb)
    refine ⟨p, ha, c, hc, .inl ?_⟩
    -- the first of the rest has a lower priority, and no other has a higher one
    cases ys with
    | nil => exact absurd hb List.not_mem_nil
    | cons y ys =>
      rcases List.mem_cons.mp hb with rfl | hb
      · exact hys b rfl c hc
      · obtain ⟨d, hd, c', hc', hord⟩ := (List.pairwise_cons.mp hsy).1 b hb
        obtain rfl : c = c' := Option.some.inj (hc.symm.trans hc')
        have hyd := hys y rfl d hd
        rcases hord with h | ⟨h, -⟩
        · exact h.trans hyd
        · exact h ▸ hyd
  refine List.pairwise_append.mpr ⟨hsx, List.pairwise_cons.mpr ⟨hafter, hsy⟩, fun b hb c hc => ?_⟩
  rcases List.mem_cons.mp hc with rfl | hc
  · exact hbefore b hb
  · exact hcross b hb c hc

theorem Holds.insert (h : r.Holds head (xs ++ ys)) {p : ℕ × HandlerEntry}
    (hring : r'.handlers.links.Circular head ((xs ++ a :: ys).map .entry))
    (hself : r'.registered a = some p) (hhead : headOf p.2.type = some head)
    (hother : ∀ b ≠ a, r'.registered b = r.registered b) (hout : a ∉ xs ++ ys)
    (hlt : ∀ b, ∀ c ∈ r.registered b, c.1 < p.1)
    (hxs : ∀ b ∈ xs, ∀ c ∈ r.registered b, p.2.priority ≤ c.2.priority)
    (hys : ∀ b ∈ ys.head?, ∀ c ∈ r.registered b, c.2.priority < p.2.priority) :
    r'.Holds head (xs ++ a :: ys) := by
  have hreg : ∀ b ∈ xs ++ ys, r'.registered b = r.registered b :=
    fun b hb => hother b fun heq => hout (heq ▸ hb)
  refine ⟨hring, fun b => ?_, sorted_insert ?_ hself (fun b hb => ?_) (fun b hb c hc => ?_)
    fun b hb c hc => ?_⟩
  · by_cases hb : b = a
    · subst hb
      exact iff_of_true (by simp) ⟨p, hself, hhead⟩
    · rw [hother b hb, ← h.mem]
      simp [hb]
  · exact h.sorted.imp_of_mem fun hb hc hbefore => hbefore.congr (hreg _ hb) (hreg _ hc)
  · obtain ⟨c, hc, -⟩ := (h.mem b).mp hb
    exact ⟨c, (hreg b hb).trans hc, hlt b c hc⟩
  · exact hxs b hb c (hreg b (List.mem_append_left ys hb) ▸ hc)
  · exact hys b hb c (hreg b (List.mem_append_right xs (List.mem_of_mem_head? hb)) ▸ hc)

theorem Inv.notMem (hi : r.Inv q) (hhead : headOf type = some head) (hfree : r.registered a = none) :
    a ∉ q head := by
  intro ha
  obtain ⟨p, hp, -⟩ := hi.holds_entry hhead ha
  exact absurd (hfree.symm.trans hp) (by simp)

theorem Inv.ne_entry (hi : r.Inv q) (hhead : headOf type = some head) (hfree : r.registered a = none)
    {y : HandlerNode} (hy : y ∈ head :: (q head).map .entry) : y ≠ .entry a := by
  rintro rfl
  rcases List.mem_cons.mp hy with heq | hy
  · exact headOf_ne_entry hhead a heq.symm
  · obtain ⟨b, hb, heq⟩ := List.mem_map.mp hy
    obtain rfl : b = a := HandlerNode.entry.inj heq
    exact hi.notMem hhead hfree hb

theorem Inv.initListHead (hi : r.Inv q) (hhead : headOf type = some head) (hfree : r.registered a = none)
    {y : HandlerNode} (hy : y ∈ head :: (q head).map .entry) :
    (r.handlers.links.initListHead (.entry a)).next y = r.handlers.links.next y ∧
      (r.handlers.links.initListHead (.entry a)).prev y = r.handlers.links.prev y := by
  have hne := hi.ne_entry hhead hfree hy
  constructor
  · rw [ListHeads.initListHead_next, if_neg hne]
  · rw [ListHeads.initListHead_prev, if_neg hne]

theorem Inv.add (hi : r.Inv q) (entry : HandlerEntry) (hhead : headOf entry.type = some head)
    (hfree : r.registered a = none) (hpos : 0 < a) (ha : a < 2 ^ 31) {s : Handlers}
    (hs : s = ⟨r.handlers.links.initListHead (.entry a),
      Function.update r.handlers.entries a (some entry)⟩) :
    ∃ pos q', (∀ n > (q head).length,
      s.insertionPoint entry.priority head n (s.links.next head) = some pos) ∧
      Inv ⟨{ s with links := s.links.listAddTail (.entry a) pos }, r.calls + 1,
        Function.update r.registered a (some (r.calls, entry))⟩ q' := by
  have hh := hi.holds _ _ hhead
  have hout := hi.notMem hhead hfree
  have hring : s.links.Circular head ((q head).map .entry) := by
    rw [hs]
    exact hh.ring.congr (fun y hy => (hi.initListHead hhead hfree hy).1)
      fun y hy => (hi.initListHead hhead hfree hy).2
  have hent : ∀ b ∈ q head, ∃ p ∈ r.registered b, s.entries b = some p.2 := by
    intro b hb
    obtain ⟨p, hp, -, hent⟩ := hi.holds_entry hhead hb
    rw [hs]
    exact ⟨p, hp, (Function.update_of_ne (ne_of_mem_of_not_mem hb hout) _ _).trans hent⟩
  have hreg : ∀ b ≠ a, Function.update r.registered a (some (r.calls, entry)) b = r.registered b :=
    fun b hb => Function.update_of_ne hb _ _
  have hself : Function.update r.registered a (some (r.calls, entry)) a = some (r.calls, entry) :=
    Function.update_self ..
  obtain ⟨xs, ys, hxy, hxs, hys, hpoint⟩ := Handlers.insertionPoint_spec hring.next
    (headOf_ne_entry hhead) (fun b hb => by
      obtain ⟨p, -, hb⟩ := hent b hb
      rw [hb]
      rfl) entry.priority
  have hent' : ∀ b ∈ q head, ∀ c ∈ r.registered b, s.entries b = some c.2 := by
    intro b hb c hc
    obtain ⟨p, hp, hb⟩ := hent b hb
    rwa [Option.some.inj (hc.symm.trans hp)]
  have hsplit : (q head).map HandlerNode.entry = xs.map .entry ++ ys.map .entry := by
    rw [hxy, List.map_append]
  have hfresh : .entry a ∉ head :: (q head).map HandlerNode.entry :=
    fun hmem => hi.ne_entry hhead hfree hmem rfl
  rw [hsplit] at hring hfresh
  obtain ⟨hadd, hframe⟩ := hring.listAddTail_headD hfresh
  refine ⟨_, Function.update q head (xs ++ a :: ys), hpoint, fun type' head' hhead' => ?_,
    fun b p hp => ?_⟩
  · by_cases heq : head' = head
    · subst heq
      rw [Function.update_self]
      rw [hxy] at hh hout hent'
      refine hh.insert (by rwa [List.map_append, List.map_cons]) hself hhead hreg hout
        (fun b c hc => (hi.entry b c hc).2.2.2.2) (fun b hb c hc => ?_) fun b hb c hc => ?_
      · exact hxs b hb _ (hent' b (List.mem_append_left ys hb) c hc)
      · exact hys b hb _ (hent' b (List.mem_append_right xs (List.mem_of_mem_head? hb)) c hc)
    · rw [Function.update_of_ne heq]
      refine (hi.holds type' head' hhead').keep (fun y hy => ?_) hreg (hi.notMem hhead' hfree)
        fun p hp hph => ?_
      · have hy' := hi.notMem_other hhead hhead' heq hy
        rw [hsplit] at hy'
        obtain ⟨h₁, h₂⟩ := hi.initListHead hhead' hfree hy
        obtain ⟨h₃, h₄⟩ := hframe y hy' (hi.ne_entry hhead' hfree hy)
        subst hs
        exact ⟨h₃.trans h₁, h₄.trans h₂⟩
      · obtain rfl : (r.calls, entry) = p := Option.some.inj (hself.symm.trans hp)
        exact heq (Option.some.inj (hph.symm.trans hhead))
  · by_cases hb : b = a
    · subst hb
      obtain rfl : (r.calls, entry) = p := Option.some.inj (hself.symm.trans hp)
      subst hs
      exact ⟨Function.update_self .., ⟨head, hhead⟩, hpos, ha, Nat.lt_succ_self _⟩
    · obtain ⟨h₁, h₂, h₃, h₄, h₅⟩ := hi.entry b p ((hreg b hb).symm.trans hp)
      subst hs
      exact ⟨(Function.update_of_ne hb _ _).trans h₁, h₂, h₃, h₄, h₅.trans (Nat.lt_succ_self _)⟩

theorem Holds.erase (h : r.Holds head (xs ++ a :: ys))
    (hring : r'.handlers.links.Circular head ((xs ++ ys).map .entry))
    (hnone : r'.registered a = none) (hother : ∀ b ≠ a, r'.registered b = r.registered b) :
    r'.Holds head (xs ++ ys) := by
  have hout : a ∉ xs ++ ys :=
    (List.nodup_cons.mp (List.nodup_middle.mp (List.nodup_cons.mp h.ring.nodup).2.of_map)).1
  refine ⟨hring, fun b => ?_, ?_⟩
  · by_cases hb : b = a
    · subst hb
      refine iff_of_false hout ?_
      rintro ⟨c, hc, -⟩
      exact absurd (hnone.symm.trans hc) (by simp)
    · rw [hother b hb, ← h.mem]
      simp [hb]
  · refine (h.sorted.sublist ((List.sublist_cons_self a ys).append_left xs)).imp_of_mem ?_
    exact fun hb hc hbefore => hbefore.congr (hother _ (ne_of_mem_of_not_mem hb hout))
      (hother _ (ne_of_mem_of_not_mem hc hout))

theorem Inv.remove (hi : r.Inv q) {p : ℕ × HandlerEntry} (hp : r.registered a = some p) :
    ∃ q', Inv ⟨{ r.handlers with links := r.handlers.links.listDel .null (.entry a) }.setEntry a none,
      r.calls + 1, Function.update r.registered a none⟩ q' := by
  obtain ⟨-, ⟨head, hhead⟩, -⟩ := hi.entry a p hp
  have hh := hi.holds _ _ hhead
  have ha : a ∈ q head := (hh.mem a).mpr ⟨p, hp, hhead⟩
  have hring := hh.ring
  have hreg : ∀ b ≠ a, Function.update r.registered a none b = r.registered b :=
    fun b hb => Function.update_of_ne hb _ _
  have hnone : Function.update r.registered a none a = none := Function.update_self ..
  obtain ⟨xs, ys, hxy⟩ := List.append_of_mem ha
  refine ⟨Function.update q head (xs ++ ys), fun type' head' hhead' => ?_, fun b c hc => ?_⟩
  · by_cases heq : head' = head
    · subst heq
      rw [Function.update_self]
      rw [hxy] at hh hring
      refine hh.erase ?_ hnone hreg
      rw [List.map_append, List.map_cons] at hring
      rw [List.map_append]
      exact hring.listDel
    · rw [Function.update_of_ne heq]
      refine (hi.holds type' head' hhead').keep (fun y hy => ?_) hreg (fun ha' => ?_)
        fun c hc => absurd (hnone.symm.trans hc) (by simp)
      · exact hring.listDel_frame (List.mem_map_of_mem ha) (hi.notMem_other hhead hhead' heq hy)
      · obtain ⟨p', hp', hhead'', -⟩ := hi.holds_entry hhead' ha'
        obtain rfl : p = p' := Option.some.inj (hp.symm.trans hp')
        exact heq (Option.some.inj (hhead''.symm.trans hhead))
  · have hb : b ≠ a := by
      rintro rfl
      exact absurd (hnone.symm.trans hc) (by simp)
    obtain ⟨h₁, h₂, h₃, h₄, h₅⟩ := hi.entry b c ((hreg b hb).symm.trans hc)
    exact ⟨(Function.update_of_ne hb _ _).trans h₁, h₂, h₃, h₄, h₅.trans (Nat.lt_succ_self _)⟩

theorem Inv.refuse (hi : r.Inv q) (hfree : r.registered a = none) (entry : HandlerEntry) :
    Inv ⟨Handlers.setEntry ⟨r.handlers.links.initListHead (.entry a),
      Function.update r.handlers.entries a (some entry)⟩ a none, r.calls + 1, r.registered⟩ q where
  holds type head hhead := by
    refine (hi.holds type head hhead).keep (fun y hy => hi.initListHead hhead hfree hy)
      (fun _ _ => rfl) (hi.notMem hhead hfree) fun p hp => ?_
    exact absurd (hfree.symm.trans hp) (by simp)
  entry b p hp := by
    have hb : b ≠ a := by
      rintro rfl
      exact absurd (hfree.symm.trans hp) (by simp)
    obtain ⟨h₁, h₂, h₃, h₄, h₅⟩ := hi.entry b p hp
    refine ⟨?_, h₂, h₃, h₄, h₅.trans (Nat.lt_succ_self _)⟩
    show Function.update (Function.update r.handlers.entries a _) a none b = _
    rwa [Function.update_of_ne hb, Function.update_of_ne hb]

theorem Inv.register (hi : r.Inv q) {handler userData : ℕ} {priority : ℤ}
    (hhead : headOf type = some head) (hnull : handler ≠ 0)
    (ha : r.Allowed (.register type handler userData priority (some a))) :
    ∃ handlers q', (∃ N, ∀ n ≥ N,
      r.handlers.eventRegisterHandler n type handler userData priority (some a) = some (handlers, (a : ℤ))) ∧
      Inv ⟨handlers, r.calls + 1,
        Function.update r.registered a (some (r.calls, ⟨type, handler, userData, priority⟩))⟩ q' := by
  obtain ⟨hpos, hlt, hfree⟩ := ha a rfl
  obtain ⟨pos, q', hpoint, hinv⟩ := hi.add ⟨type, handler, userData, priority⟩ hhead hfree hpos hlt rfl
  refine ⟨_, q', ⟨(q head).length + 1, fun n hn => ?_⟩, hinv⟩
  have hret : toInt a = a := toInt_of_isInt ⟨by omega, by omega⟩
  unfold Handlers.eventRegisterHandler
  dsimp only
  rw [if_neg hnull, hhead]
  dsimp only [Handlers.setEntry]
  rw [hpoint n hn]
  dsimp only
  rw [hret]

theorem Inv.registerStep (hi : r.Inv q) {handler userData : ℕ} {priority : ℤ}
    (hhead : headOf type = some head) (hnull : handler ≠ 0)
    (ha : r.Allowed (.register type handler userData priority (some a))) :
    ∃ handlers q', r.Step (.register type handler userData priority (some a)) ⟨handlers, r.calls + 1,
      Function.update r.registered a (some (r.calls, ⟨type, handler, userData, priority⟩))⟩ ∧
        Inv ⟨handlers, r.calls + 1,
          Function.update r.registered a (some (r.calls, ⟨type, handler, userData, priority⟩))⟩ q' := by
  obtain ⟨handlers, q', ⟨N, hrun⟩, hinv⟩ := hi.register hhead hnull ha
  refine ⟨handlers, q', ⟨ha, N, fun n hn => ?_⟩, hinv⟩
  rw [Registry.step, hrun n hn]
  dsimp only
  rw [Int.toNat_natCast, if_pos (Int.natCast_pos.mpr (ha a rfl).1)]

theorem Inv.unregisterStep (hi : r.Inv q) {p : ℕ × HandlerEntry} (hp : r.registered a = some p) :
    ∃ handlers q', r.Step (.unregister a) ⟨handlers, r.calls + 1, Function.update r.registered a none⟩ ∧
      Inv ⟨handlers, r.calls + 1, Function.update r.registered a none⟩ q' := by
  obtain ⟨q', hinv⟩ := hi.remove hp
  obtain ⟨-, -, hpos, hlt, -⟩ := hi.entry _ p hp
  have hallowed : r.Allowed (.unregister a) := .inr ⟨Int.natCast_pos.mpr hpos, by simp [hp]⟩
  refine ⟨_, q', ⟨hallowed, 0, fun n _ => ?_⟩, hinv⟩
  have haddr : ((a : ℤ) % 2 ^ 64).toNat = a := by omega
  rw [Registry.step, Handlers.eventUnregisterHandler, if_neg (Int.natCast_ne_zero.mpr hpos.ne')]
  dsimp only
  rw [haddr, if_pos rfl, Int.toNat_natCast]

theorem Inv.step (hi : r.Inv q) {call : HandlerCall} (ha : r.Allowed call) :
    ∃ r' q', r.Step call r' ∧ r'.Inv q' := by
  cases call with
  | register type handler userData priority mem =>
    by_cases hnull : handler = 0
    · refine ⟨⟨r.handlers, r.calls + 1, r.registered⟩, q, ⟨ha, 0, fun n _ => ?_⟩, hi.noop rfl rfl rfl⟩
      unfold Registry.step Handlers.eventRegisterHandler
      dsimp only
      rw [if_pos hnull]
      rfl
    cases mem with
    | none =>
      refine ⟨⟨r.handlers, r.calls + 1, r.registered⟩, q, ⟨ha, 0, fun n _ => ?_⟩, hi.noop rfl rfl rfl⟩
      unfold Registry.step Handlers.eventRegisterHandler
      dsimp only
      rw [if_neg hnull]
      rfl
    | some a =>
      obtain ⟨hpos, hlt, hfree⟩ := ha a rfl
      cases hhead : headOf type with
      | none =>
        refine ⟨_, q, ⟨ha, 0, fun n _ => ?_⟩, hi.refuse hfree ⟨type, handler, userData, priority⟩⟩
        unfold Registry.step Handlers.eventRegisterHandler
        dsimp only
        rw [if_neg hnull, hhead]
        rfl
      | some head =>
        obtain ⟨_, q', hstep, hinv⟩ := hi.registerStep hhead hnull ha
        exact ⟨_, q', hstep, hinv⟩
  | unregister handlerId =>
    by_cases hzero : handlerId = 0
    · refine ⟨⟨r.handlers, r.calls + 1, r.registered⟩, q, ⟨ha, 0, fun n _ => ?_⟩, hi.noop rfl rfl rfl⟩
      rw [Registry.step, Handlers.eventUnregisterHandler, if_pos hzero]
      rfl
    obtain ⟨hpos, hreg⟩ := ha.resolve_left hzero
    obtain ⟨a, rfl⟩ := Int.eq_ofNat_of_zero_le hpos.le
    obtain ⟨p, hp⟩ := Option.isSome_iff_exists.mp hreg
    obtain ⟨_, q', hstep, hinv⟩ := hi.unregisterStep hp
    exact ⟨_, q', hstep, hinv⟩

/-! ## The dispatch -/

variable {ε : Type}

theorem Inv.callTypeHandlers (hi : r.Inv q) (code : Code ε) (e : ℕ) (d : Dispatching ε) :
    ∃ d' calls, (∃ N, ∀ n ≥ N, r.handlers.callTypeHandlers code e n d = some d') ∧
      d'.calls = d.calls ++ calls ∧ Exec (r.Called code e) d.world calls d'.world ∧
      (d.handled = true → calls = [] ∧ d'.handled = true) ∧
      (d.handled = false → (d'.handled = true ↔ ∃ c ∈ calls, c.2 = 0) ∧ ∃ l,
        r.InOrder (fun t => t = d.world.system.typeOf e ∧ t ≠ catchAll) l ∧ InTurn calls l) := by
  unfold Handlers.callTypeHandlers
  dsimp only
  cases hd : d.handled with
  | true =>
    refine ⟨d, [], ⟨0, fun n _ => if_neg (by simp)⟩, (List.append_nil _).symm, .nil _,
      fun _ => ⟨rfl, hd⟩, fun h => absurd h (by simp)⟩
  | false =>
    by_cases htype : d.world.system.typeOf e < eventUser
    · have hhead := headOf_of_lt htype
      have hh := hi.holds _ _ hhead
      have hentry : ∀ a ∈ q (.typeHandlers (d.world.system.typeOf e)), ∃ p ∈ r.registered a,
          r.handlers.entries a = some p.2 ∧ ∀ _ : World ε, true = true := by
        intro a ha
        obtain ⟨p, hp, -, hent⟩ := hi.holds_entry hhead ha
        exact ⟨p, hp, hent, fun _ => rfl⟩
      obtain ⟨d', calls, hrun, hcalls, hexec, hturn, hhandled⟩ := Handlers.callHandlers_spec code e
        (fun _ _ => true) hh.ring.next (headOf_ne_entry hhead) hentry hd
      refine ⟨d', calls, ⟨(q (.typeHandlers (d.world.system.typeOf e))).length + 1, fun n hn => ?_⟩,
        hcalls, hexec, fun h => absurd h (by simp), fun _ => ⟨hhandled, _, ?_, hturn⟩⟩
      · rw [if_pos ⟨rfl, htype⟩]
        exact hrun n hn
      · have hne : d.world.system.typeOf e ≠ catchAll := ne_of_lt (htype.trans (by decide))
        refine ⟨fun a => ?_, hh.sorted⟩
        rw [(hh.inOrder hhead).mem]
        exact exists_congr fun p => and_congr_right fun _ =>
          ⟨fun heq => ⟨heq, heq ▸ hne⟩, And.left⟩
    · refine ⟨d, [], ⟨0, fun n _ => if_neg fun h => htype h.2⟩, (List.append_nil _).symm, .nil _,
        fun h => absurd h (by simp), fun _ => ⟨by simp [hd], [], ⟨fun a => ?_, .nil⟩, .nil⟩⟩
      refine iff_of_false List.not_mem_nil ?_
      -- nothing is registered for a type that has no list
      rintro ⟨p, hp, heq, hne⟩
      obtain ⟨-, ⟨head, hhead⟩, -⟩ := hi.entry a p hp
      rcases headOf_eq hhead with ⟨hall, -⟩ | ⟨hlt, -⟩
      · exact hne hall
      · exact htype (heq ▸ hlt)

theorem Inv.dispatch (hi : r.Inv q) (code : Code ε) (e : ℕ) (w : World ε) :
    ∃ w₂ w' calls,
      (∃ N, ∀ n ≥ N, r.handlers.eventDispatch code n (some e) w = some (w', calls)) ∧
        r.CallsOk code e w calls w₂ ∧ Finishes code e calls w₂ w' := by
  have hh := hi.holds _ _ headOf_catchAll
  let wanted := fun (world : World ε) (entry : HandlerEntry) =>
    decide (entry.type = catchAll ∨ entry.type = world.system.typeOf e)
  have hentry : ∀ a ∈ q .handlers, ∃ p ∈ r.registered a, r.handlers.entries a = some p.2 ∧
      ∀ world, wanted world p.2 = true := by
    intro a ha
    obtain ⟨p, hp, hhead, hent⟩ := hi.holds_entry headOf_catchAll ha
    exact ⟨p, hp, hent, fun _ => decide_eq_true (.inl (headOf_inj hhead headOf_catchAll))⟩
  obtain ⟨d, first, hrun, hfirst, hexec, hturn, hhandled⟩ := Handlers.callHandlers_spec
    (d := ⟨w, [], false⟩) code e wanted hh.ring.next (headOf_ne_entry headOf_catchAll) hentry rfl
  obtain ⟨d', second, ⟨N, hrun'⟩, hsecond, hexec', hstop, hgo⟩ :=
    hi.callTypeHandlers code e d
  have hcalls : d'.calls = first ++ second := by rw [hsecond, hfirst, List.nil_append]
  have hfirst0 : (∀ c ∈ first, c.2 ≠ 0) → d.handled = false := by
    intro hnone
    rw [Bool.eq_false_iff, Ne, hhandled]
    rintro ⟨c, hc, hzero⟩
    exact hnone c hc hzero
  have hhandled' : d'.handled = true ↔ ∃ c ∈ first ++ second, c.2 = 0 := by
    simp only [List.mem_append, or_and_right, exists_or]
    cases hd : d.handled with
    | true => exact iff_of_true (hstop hd).2 (.inl (hhandled.mp hd))
    | false =>
      rw [(hgo hd).1, or_iff_right fun h => absurd (hhandled.mpr h) (by simp [hd])]
  let w' := Handlers.callRouter code e d'
  refine ⟨d'.world, { w' with system := w'.system.dispatched e }, first ++ second,
    ⟨max ((q .handlers).length + 1) N, fun n hn => ?_⟩,
    ⟨first, second, d.world, rfl, hexec, hexec', ⟨_, hh.inOrder headOf_catchAll, hturn⟩,
      fun h => (hstop (hhandled.mpr h)).1, fun h => (hgo (hfirst0 h)).2⟩,
    w', EventSystem.dispatched_freeList .., fun h => ?_, fun h => ?_⟩
  · unfold Handlers.eventDispatch
    dsimp only
    rw [hrun n (by omega)]
    dsimp only
    rw [hrun' n (by omega)]
    dsimp only
    rw [hcalls]
  · exact if_neg fun hr => absurd (hhandled'.mpr h) (by simp [hr.1])
  · have hd' : d'.handled = false := by
      rw [Bool.eq_false_iff, Ne, hhandled']
      rintro ⟨c, hc, hzero⟩
      exact h c hc hzero
    by_cases hr : d'.world.router = 0
    · rw [if_pos hr]
      exact if_neg fun h => h.2 hr
    · rw [if_neg hr]
      exact if_pos ⟨hd', hr⟩

/-! ## The runs -/

theorem Inv.ok (hi : r.Inv q) : r.Ok where
  lists type head hhead :=
    ⟨q head, (hi.holds type head hhead).ring, (hi.holds type head hhead).inOrder hhead⟩
  returns call ha := by
    obtain ⟨r', -, hstep, -⟩ := hi.step ha
    exact ⟨r', hstep⟩
  registers type head handler userData priority a hhead hnull ha := by
    obtain ⟨handlers, q', hrun, hinv⟩ := hi.register hhead hnull ha
    have hh := hinv.holds type head hhead
    exact ⟨handlers, q' head, hrun, hh.ring, (hh.mem a).mpr ⟨_, Function.update_self .., hhead⟩⟩
  dispatch := hi.dispatch

theorem Step.unique {call : HandlerCall} {r₁ r₂ : Registry} (h₁ : r.Step call r₁)
    (h₂ : r.Step call r₂) : r₁ = r₂ := by
  obtain ⟨-, N₁, h₁⟩ := h₁
  obtain ⟨-, N₂, h₂⟩ := h₂
  exact Option.some.inj ((h₁ (max N₁ N₂) (le_max_left ..)).symm.trans (h₂ _ (le_max_right ..)))

end Registry

end GcAos.Events
