import GcAos.Sched.Preempt
import Mathlib.Algebra.BigOperators.Ring.Finset

/-! The two priority arrays over runs of the scheduler. -/

namespace GcAos.Preempt
open Lib

def heads : Set Node := {n | ∃ a prio, prio < schedPrioLevels ∧ n = .queue a prio}

/-- The pointers and the arrays hold the queues `q`: a bit is set for each queue that is not empty, the
counts are the numbers of entries, and a process is in the queue for its priority `prio`. That it is in
one queue at most is part of `Rings`. -/
structure Filed (lists : ListHeads Node) (arrays : ArrayId → PrioArray) (prio : Ptr → ℕ)
    (q : Node → List Node) : Prop where
  rings : lists.Rings heads q
  entry : ∀ h ∈ heads, ∀ n ∈ q h, ∃ p, p ≠ 0 ∧ n = .runList p
  bit : ∀ a i, i < schedPrioLevels → ((arrays a).bitmap.testBit i = true ↔ q (.queue a i) ≠ [])
  high : ∀ a i, schedPrioLevels ≤ i → (arrays a).bitmap.testBit i = false
  count : ∀ a, (arrays a).count = ((∑ i ∈ Finset.range schedPrioLevels, (q (.queue a i)).length : ℕ) : ℤ)
  placed : ∀ a i, i < schedPrioLevels → ∀ p, .runList p ∈ q (.queue a i) → i = prio p

namespace RunQueue

/-- The queue that the priority of a process stands for. -/
def prio (s : RunQueue) (p : Ptr) : ℕ := queueIndex (s.procs p).priority

def Holds (s : RunQueue) (q : Node → List Node) : Prop := Filed s.lists s.arrays s.prio q

/-- The process is in a queue of the array `a`. -/
def On (s : RunQueue) (a : ArrayId) (p : Ptr) : Prop :=
  ∃ q, s.Holds q ∧ ∃ i < schedPrioLevels, .runList p ∈ q (.queue a i)

end RunQueue

theorem queueIndex_lt (priority : ℤ) : queueIndex priority < schedPrioLevels := by
  unfold queueIndex schedPrioLevels
  dsimp only
  split_ifs <;> omega

theorem queue_mem_heads {a : ArrayId} {i : ℕ} (h : i < schedPrioLevels) : Node.queue a i ∈ heads :=
  ⟨a, i, h, rfl⟩

theorem runList_notMem_heads (p : Ptr) : Node.runList p ∉ heads := by
  rintro ⟨a, i, -, h⟩
  exact Node.noConfusion h

section Filed

variable {lists : ListHeads Node} {arrays : ArrayId → PrioArray} {prio prio' : Ptr → ℕ}
  {q : Node → List Node} {a : ArrayId} {i : ℕ} {p x : Ptr}

theorem Filed.listEmpty_iff (h : Filed lists arrays prio q) (p : Ptr) :
    ¬lists.ListEmpty (.runList p) ↔ ∃ a i, i < schedPrioLevels ∧ .runList p ∈ q (.queue a i) := by
  rw [h.rings.listEmpty_entry (runList_notMem_heads p)]
  push Not
  constructor
  · rintro ⟨n, ⟨a, i, hi, rfl⟩, hmem⟩
    exact ⟨a, i, hi, hmem⟩
  · rintro ⟨a, i, hi, hmem⟩
    exact ⟨_, queue_mem_heads hi, hmem⟩

theorem Filed.congr (h : Filed lists arrays prio q)
    (hprio : ∀ p, ¬lists.ListEmpty (.runList p) → prio' p = prio p) : Filed lists arrays prio' q where
  rings := h.rings
  entry := h.entry
  bit := h.bit
  high := h.high
  count := h.count
  placed a i hi p hmem := by
    rw [hprio p ((h.listEmpty_iff p).mpr ⟨a, i, hi, hmem⟩)]
    exact h.placed a i hi p hmem

theorem sum_length_update (q : Node → List Node) (a : ArrayId) (hi : i < schedPrioLevels) (l : List Node) :
    ∑ j ∈ Finset.range schedPrioLevels, (Function.update q (.queue a i) l (.queue a j)).length +
        (q (.queue a i)).length =
      ∑ j ∈ Finset.range schedPrioLevels, (q (.queue a j)).length + l.length := by
  have hmem := Finset.mem_range.mpr hi
  rw [← Finset.add_sum_erase _ _ hmem, ← Finset.add_sum_erase _ (fun j => (q (.queue a j)).length) hmem,
    Function.update_self]
  have hrest : ∑ j ∈ (Finset.range schedPrioLevels).erase i,
      (Function.update q (.queue a i) l (.queue a j)).length =
        ∑ j ∈ (Finset.range schedPrioLevels).erase i, (q (.queue a j)).length := by
    apply Finset.sum_congr rfl
    intro j hj
    rw [Function.update_of_ne]
    intro heq
    exact Finset.ne_of_mem_erase hj (Node.queue.inj heq).2
  rw [hrest]
  omega

theorem sum_length_update_of_ne (q : Node → List Node) {a b : ArrayId} (h : b ≠ a) (l : List Node) :
    ∑ j ∈ Finset.range schedPrioLevels, (Function.update q (.queue a i) l (.queue b j)).length =
      ∑ j ∈ Finset.range schedPrioLevels, (q (.queue b j)).length := by
  apply Finset.sum_congr rfl
  intro j _
  rw [Function.update_of_ne]
  intro heq
  exact h (Node.queue.inj heq).1

theorem Filed.update {lists' : ListHeads Node} {array : PrioArray} {l : List Node}
    (h : Filed lists arrays prio q) (hi : i < schedPrioLevels)
    (hrings : lists'.Rings heads (Function.update q (.queue a i) l))
    (hentry : ∀ n ∈ l, ∃ p, p ≠ 0 ∧ n = .runList p ∧ i = prio p)
    (hbit : ∀ j, array.bitmap.testBit j = if j = i then decide (l ≠ []) else (arrays a).bitmap.testBit j)
    (hcount : array.count + (q (.queue a i)).length = (arrays a).count + l.length) :
    Filed lists' (Function.update arrays a array) prio (Function.update q (.queue a i) l) := by
  have hother {b : ArrayId} {j : ℕ} (hne : ¬(b = a ∧ j = i)) :
      Function.update q (.queue a i) l (.queue b j) = q (.queue b j) := by
    apply Function.update_of_ne
    intro heq
    exact hne (Node.queue.inj heq)
  refine ⟨hrings, ?_, ?_, ?_, ?_, ?_⟩
  · rintro n ⟨b, j, hj, rfl⟩ n' hn'
    by_cases hne : b = a ∧ j = i
    · obtain ⟨rfl, rfl⟩ := hne
      rw [Function.update_self] at hn'
      obtain ⟨p, hp, rfl, -⟩ := hentry n' hn'
      exact ⟨p, hp, rfl⟩
    · rw [hother hne] at hn'
      exact h.entry _ (queue_mem_heads hj) n' hn'
  · intro b j hj
    by_cases hb : b = a
    · subst hb
      rw [Function.update_self, hbit]
      split
      · next hji => rw [hji, Function.update_self, decide_eq_true_iff]
      · next hji =>
        rw [hother fun hne => hji hne.2]
        exact h.bit b j hj
    · rw [Function.update_of_ne hb, hother fun hne => hb hne.1]
      exact h.bit b j hj
  · intro b j hj
    by_cases hb : b = a
    · subst hb
      rw [Function.update_self, hbit, if_neg (by omega)]
      exact h.high b j hj
    · rw [Function.update_of_ne hb]
      exact h.high b j hj
  · intro b
    by_cases hb : b = a
    · subst hb
      have hsum := sum_length_update q b hi l
      have hold := h.count b
      rw [Function.update_self]
      omega
    · rw [Function.update_of_ne hb, sum_length_update_of_ne q hb]
      exact h.count b
  · intro b j hj p hmem
    by_cases hne : b = a ∧ j = i
    · obtain ⟨rfl, rfl⟩ := hne
      rw [Function.update_self] at hmem
      obtain ⟨p', -, heq, hprio⟩ := hentry _ hmem
      obtain rfl := Node.runList.inj heq
      exact hprio
    · rw [hother hne] at hmem
      exact h.placed b j hj p hmem

end Filed

namespace RunQueue

variable {s s' : RunQueue} {q : Node → List Node} {a : ArrayId} {p x next : Ptr} {f : Process → Process}

theorem Holds.queued_iff (h : s.Holds q) (p : Ptr) :
    s.Queued p ↔ ∃ a i, i < schedPrioLevels ∧ .runList p ∈ q (.queue a i) :=
  Filed.listEmpty_iff h p

theorem prioArrayAdd_holds (h : s.Holds q) (hp : p ≠ 0) (hout : ¬s.Queued p) :
    (prioArrayAdd s a p).Holds
      (Function.update q (.queue a (s.prio p)) (q (.queue a (s.prio p)) ++ [.runList p])) := by
  have hi : s.prio p < schedPrioLevels := queueIndex_lt _
  have hhead := queue_mem_heads (a := a) hi
  have hnone := (h.rings.listEmpty_entry (runList_notMem_heads p)).mp (not_not.mp hout)
  apply Filed.update h hi (h.rings.listAddTail hhead (runList_notMem_heads p) hnone)
  · intro n hn
    rcases List.mem_append.mp hn with hn | hn
    · obtain ⟨p', hp', rfl⟩ := h.entry _ hhead n hn
      exact ⟨p', hp', rfl, h.placed a _ hi p' hn⟩
    · exact ⟨p, hp, List.mem_singleton.mp hn, rfl⟩
  · intro j
    dsimp only
    rw [WordMap.testBit_setBit]
    split
    · next hj => simp [hj, prio]
    · next hj =>
      have hj' : j ≠ queueIndex (s.procs p).priority := hj
      simp [hj']
  · dsimp only
    rw [List.length_append, List.length_singleton]
    push_cast
    ring

theorem prioArrayRemove_holds (h : s.Holds q) {xs ys : List Node}
    (hq : q (.queue a (s.prio p)) = xs ++ .runList p :: ys) :
    (prioArrayRemove s a p).Holds (Function.update q (.queue a (s.prio p)) (xs ++ ys)) := by
  have hi : s.prio p < schedPrioLevels := queueIndex_lt _
  have hhead := queue_mem_heads (a := a) hi
  have hrings := h.rings.listDel hhead hq .null
  have hempty := hrings.listEmpty_head hhead
  rw [Function.update_self] at hempty
  apply Filed.update h hi hrings
  · intro n hn
    have hold : n ∈ q (.queue a (s.prio p)) := by
      rw [hq]
      grind
    obtain ⟨p', hp', rfl⟩ := h.entry _ hhead n hold
    exact ⟨p', hp', rfl, h.placed a _ hi p' hold⟩
  · intro j
    have hset : (s.arrays a).bitmap.testBit (s.prio p) = true := by
      rw [h.bit a _ hi, hq]
      simp
    have hsame : queueIndex (s.procs p).priority = s.prio p := rfl
    dsimp only
    rw [hsame]
    split
    · next hnil =>
      rw [WordMap.testBit_clearBit]
      have hnil := hempty.mp hnil
      split
      · next hj => simp [hj, hnil]
      · next hj => simp [hj]
    · next hnil =>
      have hnil := mt hempty.mpr hnil
      split
      · next hj => rw [hj, hset, decide_eq_true hnil]
      · rfl
  · dsimp only
    rw [hq, List.length_append, List.length_append, List.length_cons]
    push_cast
    ring

theorem prioArrayAdd_queued (h : s.Holds q) (hp : p ≠ 0) (hout : ¬s.Queued p) :
    (prioArrayAdd s a p).Queued x ↔ s.Queued x ∨ x = p := by
  have hi : s.prio p < schedPrioLevels := queueIndex_lt _
  rw [(prioArrayAdd_holds h hp hout).queued_iff, h.queued_iff]
  constructor
  · rintro ⟨b, j, hj, hmem⟩
    by_cases hne : Node.queue b j = .queue a (s.prio p)
    · rw [hne, Function.update_self] at hmem
      rcases List.mem_append.mp hmem with hmem | hmem
      · exact .inl ⟨a, _, hi, hmem⟩
      · exact .inr (Node.runList.inj (List.mem_singleton.mp hmem))
    · rw [Function.update_of_ne hne] at hmem
      exact .inl ⟨b, j, hj, hmem⟩
  · rintro (⟨b, j, hj, hmem⟩ | rfl)
    · refine ⟨b, j, hj, ?_⟩
      by_cases hne : Node.queue b j = .queue a (s.prio p)
      · rw [hne, Function.update_self, ← hne]
        exact List.mem_append_left _ hmem
      · rwa [Function.update_of_ne hne]
    · refine ⟨a, _, hi, ?_⟩
      rw [Function.update_self]
      exact List.mem_append_right _ (List.mem_singleton_self _)

theorem prioArrayRemove_queued (h : s.Holds q) {xs ys : List Node}
    (hq : q (.queue a (s.prio p)) = xs ++ .runList p :: ys) :
    (prioArrayRemove s a p).Queued x ↔ s.Queued x ∧ x ≠ p := by
  have hi : s.prio p < schedPrioLevels := queueIndex_lt _
  have hhead := queue_mem_heads (a := a) hi
  have hnd := h.rings.nodup _ hhead
  rw [hq] at hnd
  have hold {n : Node} (hn : n ∈ xs ++ ys) : n ∈ q (.queue a (s.prio p)) := by
    rw [hq]
    grind
  rw [(prioArrayRemove_holds h hq).queued_iff, h.queued_iff]
  constructor
  · rintro ⟨b, j, hj, hmem⟩
    by_cases hne : Node.queue b j = .queue a (s.prio p)
    · rw [hne, Function.update_self] at hmem
      refine ⟨⟨a, _, hi, hold hmem⟩, ?_⟩
      rintro rfl
      grind
    · rw [Function.update_of_ne hne] at hmem
      refine ⟨⟨b, j, hj, hmem⟩, ?_⟩
      rintro rfl
      exact hne (h.rings.apart _ (queue_mem_heads hj) _ hhead _ hmem (by simp [hq]))
  · rintro ⟨⟨b, j, hj, hmem⟩, hne⟩
    refine ⟨b, j, hj, ?_⟩
    by_cases hqueue : Node.queue b j = .queue a (s.prio p)
    · rw [hqueue, Function.update_self]
      rw [hqueue, hq] at hmem
      have hne' : Node.runList x ≠ .runList p := fun heq => hne (Node.runList.inj heq)
      grind
    · rwa [Function.update_of_ne hqueue]

structure Inv (s : RunQueue) : Prop where
  holds : ∃ q, s.Holds q
  arrays_ne : s.active ≠ s.expired
  running : ∀ p, (s.procs p).state = .running → ¬s.Queued p

theorem Inv.active_or_expired (h : s.Inv) (a : ArrayId) : a = s.active ∨ a = s.expired := by
  have hne := h.arrays_ne
  cases a <;> cases hact : s.active <;> cases hexp : s.expired <;> simp_all

theorem Inv.mem_active (h : s.Inv) (hp : s.Queued p) (hon : ¬s.On s.expired p) :
    ∃ q xs ys, s.Holds q ∧ q (.queue s.active (s.prio p)) = xs ++ .runList p :: ys := by
  obtain ⟨q, hq⟩ := h.holds
  obtain ⟨a, i, hi, hmem⟩ := (hq.queued_iff p).mp hp
  have ha : a = s.active := by
    refine (h.active_or_expired a).resolve_right ?_
    rintro rfl
    exact hon ⟨q, hq, i, hi, hmem⟩
  obtain rfl := hq.placed a i hi p hmem
  subst ha
  obtain ⟨xs, ys, hsplit⟩ := List.append_of_mem hmem
  exact ⟨q, xs, ys, hq, hsplit⟩

theorem modify_procs_self (s : RunQueue) (p : Ptr) (f : Process → Process) :
    (s.modify p f).procs p = f (s.procs p) :=
  Function.update_self ..

theorem modify_procs_of_ne (h : x ≠ p) : (s.modify p f).procs x = s.procs x :=
  Function.update_of_ne h ..

theorem Inv.modify (h : s.Inv) (hprio : s.Queued p → queueIndex (f (s.procs p)).priority = s.prio p)
    (hrun : (f (s.procs p)).state = .running → ¬s.Queued p) : (s.modify p f).Inv := by
  obtain ⟨q, hq⟩ := h.holds
  refine ⟨⟨q, Filed.congr hq fun x hx => ?_⟩, h.arrays_ne, fun x hx => ?_⟩
  · unfold prio
    by_cases hxp : x = p
    · subst hxp
      rw [modify_procs_self]
      exact hprio hx
    · rw [modify_procs_of_ne hxp]
  · by_cases hxp : x = p
    · subst hxp
      rw [modify_procs_self] at hx
      exact hrun hx
    · rw [modify_procs_of_ne hxp] at hx
      exact h.running x hx

theorem Inv.add (h : s.Inv) (a : ArrayId) (hp : p ≠ 0) (hout : ¬s.Queued p)
    (hrun : (s.procs p).state ≠ .running) : (prioArrayAdd s a p).Inv := by
  obtain ⟨q, hq⟩ := h.holds
  refine ⟨⟨_, prioArrayAdd_holds hq hp hout⟩, h.arrays_ne, fun x hx => ?_⟩
  rw [prioArrayAdd_queued hq hp hout]
  rintro (hqueued | rfl)
  · exact h.running x hx hqueued
  · exact hrun hx

theorem Inv.remove (h : s.Inv) (hq : s.Holds q) {xs ys : List Node}
    (hsplit : q (.queue a (s.prio p)) = xs ++ .runList p :: ys) : (prioArrayRemove s a p).Inv := by
  refine ⟨⟨_, prioArrayRemove_holds hq hsplit⟩, h.arrays_ne, fun x hx => ?_⟩
  rw [prioArrayRemove_queued hq hsplit]
  exact fun hqueued => h.running x hx hqueued.1

theorem prioArrayPickNext_cases (hq : s.Holds q) (a : ArrayId) :
    (prioArrayPickNext s a = some (0, s) ∧ ∀ i < schedPrioLevels, q (.queue a i) = []) ∨
      ∃ p xs, p ≠ 0 ∧ q (.queue a (s.prio p)) = .runList p :: xs ∧
        (∀ i < s.prio p, q (.queue a i) = []) ∧
        prioArrayPickNext s a = some (p, prioArrayRemove s a p) := by
  unfold prioArrayPickNext
  cases hfind : (s.arrays a).bitmap.findFirst schedPrioLevels with
  | none =>
    refine .inl ⟨rfl, fun i hi => ?_⟩
    have hclear := WordMap.testBit_of_findFirst_none hfind hi
    have hbit := hq.bit a i hi
    rw [hclear] at hbit
    simpa using hbit
  | some i =>
    have hset := WordMap.testBit_of_findFirst hfind
    have hi : i < schedPrioLevels := by
      by_contra hge
      rw [hq.high a i (by omega)] at hset
      exact absurd hset (by decide)
    have hne := (hq.bit a i hi).mp hset
    obtain ⟨n, xs, hcons⟩ := List.exists_cons_of_ne_nil hne
    obtain ⟨p, hp, rfl⟩ := hq.entry _ (queue_mem_heads hi) n (hcons ▸ List.mem_cons_self)
    obtain rfl := hq.placed a i hi p (hcons ▸ List.mem_cons_self)
    have hnext := hq.rings.next_head (queue_mem_heads hi) hcons
    refine .inr ⟨p, xs, hp, hcons, fun j hj => ?_, by dsimp only; rw [hnext]⟩
    have hclear := WordMap.testBit_of_lt_findFirst hfind hj
    have hbit := hq.bit a j (hj.trans hi)
    rw [hclear] at hbit
    simpa using hbit

def swapArrays (s : RunQueue) : RunQueue := { s with active := s.expired, expired := s.active }

theorem pickNext_spec (hq : s.Holds q) (hne : s.active ≠ s.expired) :
    (pickNext s = some (0, s) ∧ ∀ a i, i < schedPrioLevels → q (.queue a i) = []) ∨
      ∃ t a p xs, (t = s ∧ a = s.active ∨
          t = s.swapArrays ∧ a = s.expired ∧ ∀ i < schedPrioLevels, q (.queue s.active i) = []) ∧
        p ≠ 0 ∧ q (.queue a (s.prio p)) = .runList p :: xs ∧ (∀ i < s.prio p, q (.queue a i) = []) ∧
        pickNext s = some (p, prioArrayRemove t a p) := by
  rcases prioArrayPickNext_cases hq s.active with ⟨hpick, hempty⟩ | ⟨p, xs, hp, hcons, hbest, hpick⟩
  · have hzero : (∀ i < schedPrioLevels, q (.queue s.expired i) = []) ↔
        ¬0 < (s.arrays s.expired).count := by
      rw [hq.count s.expired]
      constructor
      · intro hnil
        rw [Finset.sum_eq_zero fun i hi => by rw [hnil i (Finset.mem_range.mp hi), List.length_nil]]
        simp
      · intro hcount i hi
        have hsum : ∑ i ∈ Finset.range schedPrioLevels, (q (.queue s.expired i)).length = 0 := by omega
        have hlen := Finset.sum_eq_zero_iff.mp hsum i (Finset.mem_range.mpr hi)
        exact List.length_eq_zero_iff.mp hlen
    by_cases hcount : 0 < (s.arrays s.expired).count
    · have heq : pickNext s = prioArrayPickNext s.swapArrays s.expired := by
        unfold pickNext
        rw [hpick]
        exact if_pos ⟨rfl, hcount⟩
      rcases prioArrayPickNext_cases (s := s.swapArrays) hq s.expired with
        ⟨-, hempty'⟩ | ⟨p, xs, hp, hcons, hbest, hpick'⟩
      · exact absurd hcount (hzero.mp hempty')
      · exact .inr ⟨_, _, p, xs, .inr ⟨rfl, rfl, hempty⟩, hp, hcons, hbest, heq.trans hpick'⟩
    · refine .inl ⟨?_, fun a i hi => ?_⟩
      · unfold pickNext
        rw [hpick]
        exact if_neg fun hc => hcount hc.2
      · have ha : a = s.active ∨ a = s.expired := by
          cases a <;> cases hact : s.active <;> cases hexp : s.expired <;> simp_all
        rcases ha with rfl | rfl
        · exact hempty i hi
        · exact hzero.mpr hcount i hi
  · refine .inr ⟨_, _, p, xs, .inl ⟨rfl, rfl⟩, hp, hcons, hbest, ?_⟩
    unfold pickNext
    rw [hpick]
    exact if_neg fun hc => hp hc.1

structure SameProcs (s s' : RunQueue) : Prop where
  procs : s'.procs = s.procs
  current : s'.current = s.current
  idle : s'.idle = s.idle
  nrRunning : s'.nrRunning = s.nrRunning
  nrBlocked : s'.nrBlocked = s.nrBlocked

theorem pickNext_cases (h : s.Inv) : ∃ next s', pickNext s = some (next, s') ∧ s'.Inv ∧ s.SameProcs s' ∧
    (next = 0 ∧ (∀ p, ¬s'.Queued p) ∨
      next ≠ 0 ∧ s.Queued next ∧ ∀ p, s'.Queued p ↔ s.Queued p ∧ p ≠ next) := by
  obtain ⟨q, hq⟩ := h.holds
  rcases pickNext_spec hq h.arrays_ne with ⟨hpick, hempty⟩ | ⟨t, a, p, xs, ht, hp, hcons, -, hpick⟩
  · refine ⟨0, s, hpick, h, ⟨rfl, rfl, rfl, rfl, rfl⟩, .inl ⟨rfl, fun p hqueued => ?_⟩⟩
    obtain ⟨a, i, hi, hmem⟩ := (hq.queued_iff p).mp hqueued
    rw [hempty a i hi] at hmem
    exact absurd hmem List.not_mem_nil
  · have hinv : t.Inv ∧ t.Holds q ∧ s.SameProcs t ∧ t.lists = s.lists := by
      rcases ht with ⟨rfl, -⟩ | ⟨rfl, -⟩
      · exact ⟨h, hq, ⟨rfl, rfl, rfl, rfl, rfl⟩, rfl⟩
      · exact ⟨⟨⟨q, hq⟩, h.arrays_ne.symm, h.running⟩, hq, ⟨rfl, rfl, rfl, rfl, rfl⟩, rfl⟩
    obtain ⟨htinv, htq, hsame, hlists⟩ := hinv
    have hsplit : q (.queue a (t.prio p)) = [] ++ .runList p :: xs := by
      unfold prio at hcons ⊢
      rw [hsame.procs]
      exact hcons
    refine ⟨p, _, hpick, htinv.remove htq hsplit, ⟨hsame.procs, hsame.current, hsame.idle,
      hsame.nrRunning, hsame.nrBlocked⟩, .inr ⟨hp, (hq.queued_iff p).mpr ?_, fun x => ?_⟩⟩
    · exact ⟨a, _, queueIndex_lt _, hcons ▸ List.mem_cons_self⟩
    · rw [prioArrayRemove_queued htq hsplit]
      unfold Queued
      rw [hlists]

theorem Inv.enqueue (h : s.Inv) (a : ArrayId) (hp : p ≠ 0) (hout : ¬s.Queued p)
    (hf : (f (s.procs p)).state = .ready) :
    (prioArrayAdd (s.modify p f) a p).Inv ∧
      ∀ x, (prioArrayAdd (s.modify p f) a p).Queued x ↔ s.Queued x ∨ x = p := by
  have hready : (f (s.procs p)).state ≠ .running := by
    rw [hf]
    decide
  have hmod : (s.modify p f).Inv := h.modify (fun hp => absurd hp hout) fun hr => absurd hr hready
  obtain ⟨q, hq⟩ := hmod.holds
  refine ⟨hmod.add a hp hout ?_, fun x => prioArrayAdd_queued hq hp hout⟩
  rw [modify_procs_self]
  exact hready

theorem Inv.putBack (h : s.Inv) (p : Ptr) :
    (putBack s p).Inv ∧ ∀ x, (Preempt.putBack s p).Queued x → s.Queued x ∨ x = p := by
  unfold Preempt.putBack
  split
  · next hrun =>
    have hout : ¬s.Queued p := h.running p hrun.2
    split
    · obtain ⟨hinv, hqueued⟩ := h.enqueue (f := fun p =>
        { p with state := .ready, timeSlice := timesliceNs p.priority }) s.expired hrun.1 hout rfl
      exact ⟨hinv, fun x => (hqueued x).mp⟩
    · obtain ⟨hinv, hqueued⟩ := h.enqueue (f := fun p => { p with state := .ready }) s.active hrun.1 hout rfl
      exact ⟨hinv, fun x => (hqueued x).mp⟩
  · exact ⟨h, fun x => .inl⟩

theorem reschedule_cases {now : ℕ} (hstep : schedulerReschedule s now = some s') :
    ∃ picked s₁, pickNext s = some (picked, s₁) ∧
      ((if picked = 0 then s₁.idle else picked) = s.current ∧ s' = { s₁ with needResched := false } ∨
        ∃ next, next = (if picked = 0 then s₁.idle else picked) ∧ next ≠ s.current ∧ next ≠ 0 ∧
          s' = switchTo (putBack s₁ s.current) next now) := by
  unfold schedulerReschedule at hstep
  obtain ⟨⟨picked, s₁⟩, hpick, hstep⟩ := Option.bind_eq_some_iff.mp hstep
  refine ⟨picked, s₁, hpick, ?_⟩
  dsimp only at hstep
  generalize (if picked = 0 then s₁.idle else picked) = next at hstep ⊢
  split at hstep
  · next heq => exact .inl ⟨heq, (Option.some.inj hstep).symm⟩
  · next hne =>
    split at hstep
    · exact absurd hstep (by simp)
    · next hnull => exact .inr ⟨next, rfl, hne, hnull, (Option.some.inj hstep).symm⟩

theorem Inv.reschedule (h : s.Inv) {now : ℕ} (hstep : schedulerReschedule s now = some s') : s'.Inv := by
  obtain ⟨picked, s₁, hpick, hcase⟩ := reschedule_cases hstep
  obtain ⟨picked', s₁', hpick', hinv, hsame, hqueued⟩ := pickNext_cases h
  obtain ⟨rfl, rfl⟩ := pair_inj (hpick.symm.trans hpick')
  rcases hcase with ⟨-, rfl⟩ | ⟨next, hnext, hne, hnull, rfl⟩
  · exact ⟨hinv.holds, hinv.arrays_ne, hinv.running⟩
  · -- the process that is switched to is in no queue
    have hout : ¬s₁.Queued next := by
      rcases hqueued with ⟨-, hnone⟩ | ⟨hpicked, -, hiff⟩
      · exact hnone next
      · rw [if_neg hpicked] at hnext
        rw [hnext, hiff]
        exact fun hc => hc.2 rfl
    obtain ⟨hback, hsub⟩ := hinv.putBack s.current
    have hout' : ¬(Preempt.putBack s₁ s.current).Queued next := fun hc =>
      (hsub next hc).elim hout hne
    have hmod := hback.modify (f := fun p => { p with state := .running, execStart := now })
      (fun hc => absurd hc hout') fun _ => hout'
    exact ⟨hmod.holds, hmod.arrays_ne, hmod.running⟩

/-- Where a call keeps the arrays right: a process that is removed or gets a new policy is not in the
expired array, one that gets another priority while it is queued still belongs to its queue, and one that
is queued is not queued again. -/
def Keeps (s : RunQueue) : Call → Prop
  | .addProcess p => ¬s.Queued p
  | .removeProcess p => ¬s.On s.expired p
  | .setPolicy p policy priority => s.On s.expired p →
      priority < 0 ∨ schedPrioLevels ≤ priority ∨ policyPriority policy priority = none
  | .wake p => s.Queued p → (s.procs p).state = .ready ∨ (s.procs p).state = .running
  | .boostPriority p amount => s.Queued p → queueIndex (boosted (s.procs p) amount) = s.prio p
  | .unboostPriority p => s.Queued p → queueIndex (s.procs p).basePriority = s.prio p
  | .tick _ => s.Queued s.current →
      queueIndex (boostStarved (charge (s.procs s.current))).priority = s.prio s.current
  | .reschedule _ | .yield _ | .block _ => True

theorem checkPreempt_inv (h : s.Inv) (p : Ptr) : (checkPreempt s p).Inv := by
  unfold checkPreempt
  split
  · exact ⟨h.holds, h.arrays_ne, h.running⟩
  · exact h

theorem Inv.addProcess (h : s.Inv) (hk : s.Keeps (.addProcess p)) : (schedulerAddProcess s p).2.Inv := by
  unfold schedulerAddProcess
  split
  · exact h
  · next hp =>
    split
    · exact h
    · obtain ⟨hinv, -⟩ := h.enqueue (f := fun p => { p with state := .ready }) s.active hp hk rfl
      apply checkPreempt_inv
      exact ⟨hinv.holds, hinv.arrays_ne, hinv.running⟩

theorem Inv.removeProcess (h : s.Inv) (hk : s.Keeps (.removeProcess p)) :
    (schedulerRemoveProcess s p).2.Inv := by
  unfold schedulerRemoveProcess
  split
  · exact h
  · split
    · next hqueued =>
      obtain ⟨q, xs, ys, hq, hsplit⟩ := h.mem_active hqueued hk
      have hremove := h.remove hq hsplit
      exact ⟨hremove.holds, hremove.arrays_ne, hremove.running⟩
    · exact h

theorem Inv.wake (h : s.Inv) (hk : s.Keeps (.wake p)) : (schedulerWake s p).2.Inv := by
  unfold schedulerWake
  split
  · exact h
  · next hp =>
    split
    · exact h
    · next hstate =>
      have hout : ¬s.Queued p := fun hq => hstate (hk hq)
      obtain ⟨hinv, -⟩ := h.enqueue (f := fun p =>
        { p with state := .ready, timeSlice := timesliceNs p.priority }) s.active hp hout rfl
      apply checkPreempt_inv
      exact ⟨hinv.holds, hinv.arrays_ne, hinv.running⟩

theorem Inv.requeue (h : s.Inv) (hp : p ≠ 0) (hon : ¬s.On s.expired p) (priority : ℤ) :
    (requeue s p priority).Inv := by
  unfold Preempt.requeue
  split
  · next hqueued =>
    obtain ⟨q, xs, ys, hq, hsplit⟩ := h.mem_active hqueued hon
    have hout : ¬(prioArrayRemove s s.active p).Queued p := by
      rw [prioArrayRemove_queued hq hsplit]
      exact fun hc => hc.2 rfl
    have hset : (setPriority (prioArrayRemove s s.active p) p priority).Inv :=
      (h.remove hq hsplit).modify (fun hc => absurd hc hout) fun _ => hout
    refine hset.add s.active hp hout ?_
    unfold setPriority
    rw [modify_procs_self]
    exact fun hrun => h.running p hrun hqueued
  · next hout => exact h.modify (fun hc => absurd hc hout) fun _ => hout

theorem Inv.setPolicy (h : s.Inv) {policy : Policy} {priority : ℤ}
    (hk : s.Keeps (.setPolicy p policy priority)) : (schedulerSetPolicy s p policy priority).2.Inv := by
  unfold schedulerSetPolicy
  split
  · exact h
  · next hp =>
    split
    · exact h
    · next prio hallowed =>
      have hon : ¬s.On s.expired p := by
        intro hon
        rcases hk hon with hlow | hhigh | hnone
        · exact hp (.inr (.inl hlow))
        · exact hp (.inr (.inr hhigh))
        · exact absurd (hnone.symm.trans hallowed) (by simp)
      have hset := h.requeue (fun hnull => hp (.inl hnull)) hon prio
      dsimp only
      split
      · exact ⟨hset.holds, hset.arrays_ne, hset.running⟩
      · exact hset

theorem charge_state (p : Process) : (charge p).state = p.state := by
  cases p
  rfl

theorem charge_priority (p : Process) : (charge p).priority = p.priority := by
  cases p
  rfl

theorem boostStarved_state (p : Process) : (boostStarved p).state = p.state := by
  unfold boostStarved
  split <;> rfl

theorem Inv.chargeCurrent (h : s.Inv) (hk : s.Queued s.current →
    queueIndex (boostStarved (charge (s.procs s.current))).priority = s.prio s.current) :
    (chargeCurrent s).Inv := by
  have hcharge : (s.modify s.current charge).Inv := by
    apply h.modify
    · rw [charge_priority]
      exact fun _ => rfl
    · rw [charge_state]
      exact h.running s.current
  have hboost : ((s.modify s.current charge).modify s.current boostStarved).Inv := by
    apply hcharge.modify
    · unfold prio
      rw [modify_procs_self, charge_priority]
      exact hk
    · rw [modify_procs_self, boostStarved_state, charge_state]
      exact h.running s.current
  exact ⟨hboost.holds, hboost.arrays_ne, hboost.running⟩

theorem Inv.tick (h : s.Inv) {now : ℕ} (hk : s.Keeps (.tick now))
    (hstep : schedulerTick s now = some s') : s'.Inv := by
  unfold schedulerTick at hstep
  split at hstep
  · exact Option.some.inj hstep ▸ h
  · have hcharge := h.chargeCurrent hk
    dsimp only at hstep
    split at hstep
    · exact hcharge.reschedule hstep
    · exact Option.some.inj hstep ▸ hcharge

theorem Inv.yield (h : s.Inv) {now : ℕ} (hstep : schedulerYield s now = some s') : s'.Inv := by
  unfold schedulerYield at hstep
  split at hstep
  · have hmod : (s.modify s.current fun p => { p with timeSlice := timesliceNs p.priority }).Inv :=
      h.modify (fun _ => rfl) (h.running s.current)
    refine Inv.reschedule ?_ hstep
    exact ⟨hmod.holds, hmod.arrays_ne, hmod.running⟩
  · exact h.reschedule hstep

theorem Inv.block (h : s.Inv) {now : ℕ} (hstep : schedulerBlock s now = some s') : s'.Inv := by
  unfold schedulerBlock at hstep
  split at hstep
  · have hmod : (s.modify s.current fun p => { p with state := .blocked }).Inv :=
      h.modify (fun _ => rfl) fun hrun => absurd hrun ProcessState.noConfusion
    refine Inv.reschedule ?_ hstep
    exact ⟨hmod.holds, hmod.arrays_ne, hmod.running⟩
  · exact h.reschedule hstep

theorem step_inv (h : s.Inv) {c : Call} (hk : s.Keeps c) (hstep : s.Step c s') : s'.Inv := by
  cases c with
  | addProcess p => exact Option.some.inj hstep ▸ h.addProcess hk
  | removeProcess p => exact Option.some.inj hstep ▸ h.removeProcess hk
  | wake p => exact Option.some.inj hstep ▸ h.wake hk
  | setPolicy p policy priority => exact Option.some.inj hstep ▸ h.setPolicy hk
  | boostPriority p amount =>
    rw [← Option.some.inj hstep]
    unfold schedulerBoostPriority
    split
    · exact h
    · exact h.modify (f := fun p => { p with priority := boosted p amount }) hk (h.running p)
  | unboostPriority p =>
    rw [← Option.some.inj hstep]
    unfold schedulerUnboostPriority
    split
    · exact h
    · exact h.modify (f := fun p => { p with priority := p.basePriority }) hk (h.running p)
  | tick now => exact h.tick hk hstep
  | reschedule now => exact h.reschedule hstep
  | yield now => exact h.yield hstep
  | block now => exact h.block hstep

theorem schedulerInit_inv (idle : Ptr) (procs : Ptr → Process) : (schedulerInit idle procs).Inv := by
  have hself (n : Node) : (schedulerInit idle procs).lists.next n = n := rfl
  refine ⟨⟨fun _ => [], ?_⟩, ArrayId.noConfusion, fun p _ hq => hq (hself _)⟩
  refine ⟨⟨⟨by simp, by simp, by simp⟩, ⟨fun _ => rfl, fun _ => rfl⟩, fun n _ => hself n,
    fun n _ _ => hself n⟩, by simp, fun a i _ => ?_, fun a i _ => ?_, fun a => ?_, by simp⟩
  · simp [schedulerInit, WordMap.testBit]
  · simp [schedulerInit, WordMap.testBit]
  · simp [schedulerInit]

theorem run_inv {idle : Ptr} {procs : Ptr → Process} {calls : List Call}
    (h : Exec (fun s c s' => s.Keeps c ∧ s.Step c s') (schedulerInit idle procs) calls s) : s.Inv := by
  apply Exec.invariant _ h (schedulerInit_inv idle procs)
  rintro s c s' hs ⟨hk, hstep⟩
  exact step_inv hs hk hstep

end RunQueue

/-- In a run whose calls all keep the arrays right, the bitmaps, the counts and the queues agree in
every state. -/
theorem arrays_hold {idle : Ptr} {procs : Ptr → Process} {calls : List Call} {s : RunQueue}
    (h : Exec (fun s c s' => s.Keeps c ∧ s.Step c s') (schedulerInit idle procs) calls s) :
    ∃ q, s.Holds q :=
  (RunQueue.run_inv h).holds

def hundreds : Ptr → Process := fun _ => { priority := 100, basePriority := 100 }

theorem arrays_hold_turns : ∃ s, (∃ q, s.Holds q) ∧ s.current = 3 ∧
    Exec (fun s c s' => s.Keeps c ∧ s.Step c s') (schedulerInit 1 hundreds)
      [.addProcess 2, .addProcess 3, .reschedule 5, .boostPriority 2 20, .tick 10, .block 20, .wake 2] s := by
  have hrun : Exec (fun s c s' => s.Keeps c ∧ s.Step c s') (schedulerInit 1 hundreds)
      [.addProcess 2, .addProcess 3, .reschedule 5, .boostPriority 2 20, .tick 10, .block 20, .wake 2] _ :=
    .cons ⟨fun h => absurd h (by decide), rfl⟩ (.cons ⟨fun h => absurd h (by decide), rfl⟩
      (.cons ⟨trivial, rfl⟩ (.cons ⟨fun h => absurd h (by decide), rfl⟩
      (.cons ⟨fun h => absurd h (by decide), rfl⟩ (.cons ⟨trivial, rfl⟩
      (.cons ⟨fun h => absurd h (by decide), rfl⟩ (.nil _)))))))
  exact ⟨_, arrays_hold hrun, by rfl, hrun⟩

/-- A process gets a higher priority while it waits in the queue of the old one. -/
theorem boost_misfiles_queued : ∃ s,
    Exec (fun s c s' => (∀ p, c = .addProcess p → ¬s.Queued p) ∧ s.Step c s') (schedulerInit 1 hundreds)
      [.addProcess 2, .boostPriority 2 20] s ∧ ∀ q, ¬s.Holds q := by
  refine ⟨_, .cons ⟨?_, rfl⟩ (.cons ⟨by simp, rfl⟩ (.nil _)), fun q hq => ?_⟩
  · rintro p h
    obtain rfl := Call.addProcess.inj h
    decide
  · obtain ⟨a, i, hi, hmem⟩ := (hq.queued_iff 2).mp (by decide)
    have hprio : i = 80 := hq.placed a i hi 2 hmem
    subst hprio
    have hbit := (hq.bit a 80 hi).mpr (List.ne_nil_of_mem hmem)
    revert hbit
    cases a <;> decide

end GcAos.Preempt
