import GcAos.Sched.PreemptArrays

/-! Which process `scheduler_reschedule` chooses, and what becomes of the one before. -/

namespace GcAos.Preempt
open Lib

def InArray (q : Node → List Node) (a : ArrayId) (p : Ptr) : Prop :=
  ∃ i < schedPrioLevels, .runList p ∈ q (.queue a i)

def QueuedOnce (q : Node → List Node) (p : Ptr) : Prop :=
  ∃ a i, i < schedPrioLevels ∧ (q (.queue a i)).count (.runList p) = 1 ∧
    ∀ b j, j < schedPrioLevels → .runList p ∈ q (.queue b j) → b = a ∧ j = i

namespace RunQueue

variable {s s' s₁ : RunQueue} {q q' : Node → List Node} {a : ArrayId} {p p' x : Ptr} {now : ℕ}

def Runnable (s : RunQueue) (p : Ptr) : Prop :=
  (s.procs p).state = .ready ∨ (s.procs p).state = .running

/-- The previous process, which is not the idle one, can run. -/
def PrevRunnable (s : RunQueue) : Prop := s.current ≠ 0 ∧ s.current ≠ s.idle ∧ s.Runnable s.current

/-- Of the processes in the array `a`, it has the best priority. -/
def Best (s : RunQueue) (q : Node → List Node) (a : ArrayId) (p : Ptr) : Prop :=
  InArray q a p ∧ ∀ x, InArray q a x → s.prio p ≤ s.prio x

def First (s : RunQueue) (q : Node → List Node) (p : Ptr) : Prop :=
  ∃ a xs, (a = s.active ∨ a = s.expired ∧ ∀ i < schedPrioLevels, q (.queue s.active i) = []) ∧
    q (.queue a (s.prio p)) = .runList p :: xs ∧ ∀ i < s.prio p, q (.queue a i) = []

/-- From `s`, with the queues `q`, to `s'` the scheduler chooses well and loses no process. -/
structure Chooses (q : Node → List Node) (s s' : RunQueue) : Prop where
  active : (∃ x, InArray q s.active x) → s.Best q s.active s'.current
  expired : (∀ x, ¬InArray q s.active x) → (∃ x, InArray q s.expired x) → s.Best q s.expired s'.current
  idle : s'.current = s.idle → (∀ a x, ¬InArray q a x) ∧ ¬s.PrevRunnable
  queued : ∃ q', s'.Holds q' ∧ (∀ x, (∃ a, InArray q a x) ∨ x = s.current ∧ s.PrevRunnable →
    x ≠ s'.current → QueuedOnce q' x) ∧ ∀ a, ¬InArray q' a s.idle

/-- The idle process is replaced only if it is not running. Another process before that is ready waits in a
queue, and one that is running is in none, unless it is the first one, and there is one that waits. -/
structure KeepsPrev (s : RunQueue) (q : Node → List Node) : Prop where
  idle : s.current = s.idle → (s.procs s.idle).state = .running → ∀ a x, ¬InArray q a x
  ready : s.current ≠ 0 → s.current ≠ s.idle → (s.procs s.current).state = .ready →
    ∃ a, InArray q a s.current
  running : s.current ≠ 0 → s.current ≠ s.idle → (s.procs s.current).state = .running →
    (∃ a x, InArray q a x) ∧ ∀ a, InArray q a s.current → s.First q s.current

theorem Holds.queued_iff_inArray (h : s.Holds q) (p : Ptr) : s.Queued p ↔ ∃ a, InArray q a p := by
  rw [h.queued_iff]
  rfl

theorem Holds.queuedOnce (h : s.Holds q) (hp : s.Queued p) : QueuedOnce q p := by
  obtain ⟨a, i, hi, hmem⟩ := (h.queued_iff p).mp hp
  have hhead := queue_mem_heads (a := a) hi
  refine ⟨a, i, hi, List.count_eq_one_of_mem (h.rings.nodup _ hhead) hmem, fun b j hj hmem' => ?_⟩
  exact Node.queue.inj (h.rings.apart _ (queue_mem_heads hj) _ hhead _ hmem' hmem)

theorem First.best (hq : s.Holds q) (h : s.First q p) :
    ((∃ x, InArray q s.active x) → s.Best q s.active p) ∧
      ((∀ x, ¬InArray q s.active x) → s.Best q s.expired p) := by
  obtain ⟨a, xs, ha, hcons, hbest⟩ := h
  have hin : InArray q a p := ⟨_, queueIndex_lt _, hcons ▸ List.mem_cons_self⟩
  have hmin : s.Best q a p := by
    refine ⟨hin, fun x ⟨i, hi, hmem⟩ => ?_⟩
    obtain rfl := hq.placed a i hi x hmem
    by_contra hlt
    rw [hbest _ (not_le.mp hlt)] at hmem
    exact absurd hmem List.not_mem_nil
  rcases ha with rfl | ⟨rfl, hempty⟩
  · exact ⟨fun _ => hmin, fun hnone => absurd hin (hnone p)⟩
  · refine ⟨fun ⟨x, i, hi, hmem⟩ => ?_, fun _ => hmin⟩
    rw [hempty i hi] at hmem
    exact absurd hmem List.not_mem_nil

theorem First.unique (h : s.First q p) (h' : s.First q p') : p = p' := by
  obtain ⟨a, xs, ha, hcons, hbest⟩ := h
  obtain ⟨a', xs', ha', hcons', hbest'⟩ := h'
  have hlt : s.prio p < schedPrioLevels := queueIndex_lt _
  have hlt' : s.prio p' < schedPrioLevels := queueIndex_lt _
  have haa : a = a' := by
    rcases ha with rfl | ⟨rfl, hempty⟩ <;> rcases ha' with rfl | ⟨rfl, hempty'⟩
    · rfl
    · rw [hempty' _ hlt] at hcons
      exact absurd hcons (by simp)
    · rw [hempty _ hlt'] at hcons'
      exact absurd hcons' (by simp)
    · rfl
  subst haa
  have hprio : s.prio p = s.prio p' := by
    rcases lt_trichotomy (s.prio p) (s.prio p') with h | h | h
    · rw [hbest' _ h] at hcons
      exact absurd hcons (by simp)
    · exact h
    · rw [hbest _ h] at hcons'
      exact absurd hcons' (by simp)
  rw [hprio, hcons'] at hcons
  exact (Node.runList.inj (List.cons.inj hcons).1).symm

/-- The process `p` has been taken out of its queue. -/
structure Picked (s : RunQueue) (q : Node → List Node) (p : Ptr) (s₁ : RunQueue) : Prop where
  ne_zero : p ≠ 0
  first : s.First q p
  queued : s.Queued p
  holds : ∃ q₁, s₁.Holds q₁
  queued_iff : ∀ x, s₁.Queued x ↔ s.Queued x ∧ x ≠ p
  procs : s₁.procs = s.procs
  current : s₁.current = s.current
  idle : s₁.idle = s.idle

theorem pickNext_picked (hq : s.Holds q) (hne : s.active ≠ s.expired) :
    (pickNext s = some (0, s) ∧ ∀ x, ¬s.Queued x) ∨
      ∃ p s₁, pickNext s = some (p, s₁) ∧ s.Picked q p s₁ := by
  rcases pickNext_spec hq hne with ⟨hpick, hempty⟩ | ⟨t, a, p, xs, ht, hp, hcons, hbest, hpick⟩
  · refine .inl ⟨hpick, fun x hx => ?_⟩
    obtain ⟨a, i, hi, hmem⟩ := (hq.queued_iff x).mp hx
    rw [hempty a i hi] at hmem
    exact absurd hmem List.not_mem_nil
  · have hfirst : s.First q p := by
      rcases ht with ⟨-, rfl⟩ | ⟨-, rfl, hempty⟩
      · exact ⟨_, xs, .inl rfl, hcons, hbest⟩
      · exact ⟨_, xs, .inr ⟨rfl, hempty⟩, hcons, hbest⟩
    have hqueued : s.Queued p :=
      (hq.queued_iff p).mpr ⟨a, _, queueIndex_lt _, hcons ▸ List.mem_cons_self⟩
    have hsplit : q (.queue a (s.prio p)) = [] ++ .runList p :: xs := hcons
    refine .inr ⟨p, _, hpick, ?_⟩
    rcases ht with ⟨rfl, -⟩ | ⟨rfl, -⟩
    · exact ⟨hp, hfirst, hqueued, ⟨_, prioArrayRemove_holds hq hsplit⟩,
        fun x => prioArrayRemove_queued hq hsplit, rfl, rfl, rfl⟩
    · have hswap : s.swapArrays.Holds q := hq
      exact ⟨hp, hfirst, hqueued, ⟨_, prioArrayRemove_holds hswap hsplit⟩,
        fun x => prioArrayRemove_queued hswap hsplit, rfl, rfl, rfl⟩

theorem chooses_of_holds (hq : s.Holds q) (hfirst : s.First q s'.current) (hidle : s'.current ≠ s.idle)
    (hholds : ∃ q', s'.Holds q') (hqueued : ∀ x, s.Queued x ∨ x = s.current ∧ s.PrevRunnable →
      x ≠ s'.current → s'.Queued x) (hout : ¬s'.Queued s.idle) : Chooses q s s' := by
  obtain ⟨q', hq'⟩ := hholds
  obtain ⟨hactive, hexpired⟩ := hfirst.best hq
  refine ⟨hactive, fun hnone _ => hexpired hnone, fun h => absurd h hidle, q', hq', fun x hx hne => ?_, ?_⟩
  · refine hq'.queuedOnce (hqueued x (hx.imp_left fun h => ?_) hne)
    exact (hq.queued_iff_inArray x).mpr h
  · intro a ha
    exact hout ((hq'.queued_iff_inArray _).mpr ⟨a, ha⟩)

theorem modify_prio {f : Process → Process} (hf : ∀ x, (f x).priority = x.priority) (p : Ptr) :
    (s.modify p f).prio = s.prio := by
  funext x
  unfold prio
  by_cases hx : x = p
  · rw [hx, modify_procs_self, hf]
  · rw [modify_procs_of_ne hx]

theorem modify_holds {f : Process → Process} (hf : ∀ x, (f x).priority = x.priority) (p : Ptr) :
    (s.modify p f).Holds q ↔ s.Holds q := by
  unfold Holds
  rw [modify_prio hf]
  rfl

theorem switchTo_holds (next : Ptr) (now : ℕ) : (switchTo s next now).Holds q ↔ s.Holds q :=
  modify_holds (s := s) (f := fun p => { p with state := .running, execStart := now }) (fun _ => rfl) next

theorem putBack_of_running (hp : p ≠ 0) (hrun : (s.procs p).state = .running) :
    ∃ a f, putBack s p = prioArrayAdd (s.modify p f) a p ∧
      ∀ x : Process, (f x).priority = x.priority := by
  unfold putBack
  rw [if_pos ⟨hp, hrun⟩]
  split
  · exact ⟨s.expired, fun p => { p with state := .ready, timeSlice := timesliceNs p.priority }, rfl,
      fun _ => rfl⟩
  · exact ⟨s.active, fun p => { p with state := .ready }, rfl, fun _ => rfl⟩

theorem putBack_holds (h : ∃ q, s.Holds q) (hp : p ≠ 0) (hrun : (s.procs p).state = .running) :
    ((∃ q, (putBack s p).Holds q) ↔ ¬s.Queued p) ∧
      (¬s.Queued p → ∀ x, (putBack s p).Queued x ↔ s.Queued x ∨ x = p) := by
  obtain ⟨q, hq⟩ := h
  obtain ⟨a, f, heq, hf⟩ := putBack_of_running hp hrun
  have hmod : (s.modify p f).Holds q := (modify_holds hf p).mpr hq
  rw [heq]
  refine ⟨⟨fun ⟨q', hq'⟩ hqueued => ?_, fun hout => ⟨_, prioArrayAdd_holds hmod hp hout⟩⟩, fun hout x =>
    prioArrayAdd_queued hmod hp hout⟩
  exact hq.rings.toPaired.not_listAddTail hqueued Node.noConfusion hq'.rings.toPaired

theorem reschedule_none_iff (hq : s.Holds q) (hidle : s.idle ≠ 0) (hpick : pickNext s = some (0, s))
    (hnone : ∀ x, ¬s.Queued x) :
    (∃ s', schedulerReschedule s now = some s' ∧ Chooses q s s') ↔ KeepsPrev s q := by
  have hempty (a : ArrayId) (x : Ptr) : ¬InArray q a x := fun h =>
    hnone x ((hq.queued_iff_inArray x).mpr ⟨a, h⟩)
  have hresched : schedulerReschedule s now = if s.idle = s.current then some { s with needResched := false }
      else some (switchTo (putBack s s.current) s.idle now) := by
    unfold schedulerReschedule
    rw [hpick]
    simp [hidle]
  have hkeeps : KeepsPrev s q ↔ ¬s.PrevRunnable := by
    constructor
    · rintro ⟨-, hready, hrunning⟩ ⟨h0, hne, hrun⟩
      rcases hrun with hrun | hrun
      · obtain ⟨a, ha⟩ := hready h0 hne hrun
        exact hempty a _ ha
      · obtain ⟨⟨a, x, ha⟩, -⟩ := hrunning h0 hne hrun
        exact hempty a x ha
    · intro hprev
      exact ⟨fun _ _ => hempty, fun h0 hne hrun => absurd ⟨h0, hne, .inl hrun⟩ hprev,
        fun h0 hne hrun => absurd ⟨h0, hne, .inr hrun⟩ hprev⟩
  rw [hresched, hkeeps]
  constructor
  · rintro ⟨s', hs', hchooses⟩
    refine (hchooses.idle ?_).2
    split at hs'
    · next heq => exact Option.some.inj hs' ▸ heq.symm
    · exact Option.some.inj hs' ▸ rfl
  · intro hprev
    have hchooses {s' : RunQueue} (hholds : s'.Holds q) : Chooses q s s' := by
      refine ⟨fun ⟨x, hx⟩ => absurd hx (hempty _ x), fun _ ⟨x, hx⟩ => absurd hx (hempty _ x),
        fun _ => ⟨hempty, hprev⟩, q, hholds, fun x hx _ => ?_, fun a => hempty a _⟩
      rcases hx with ⟨a, ha⟩ | ⟨-, hrun⟩
      · exact absurd ha (hempty a x)
      · exact absurd hrun hprev
    split
    · exact ⟨_, rfl, hchooses hq⟩
    · next hne =>
      -- the previous process is absent or does not run
      have hback : putBack s s.current = s := by
        refine if_neg fun hrun => hprev ⟨hrun.1, fun heq => hne heq.symm, .inr hrun.2⟩
      rw [hback]
      exact ⟨_, rfl, hchooses ((switchTo_holds s.idle now).mpr hq)⟩

theorem reschedule_same_iff (hq : s.Holds q) (hidle : ¬s.Queued s.idle) (hpicked : s.Picked q p s₁)
    (hpick : pickNext s = some (p, s₁)) (hp : p = s.current) :
    (∃ s', schedulerReschedule s now = some s' ∧ Chooses q s s') ↔ KeepsPrev s q := by
  have hne : p ≠ s.idle := fun h => hidle (h ▸ hpicked.queued)
  have hin := (hq.queued_iff_inArray p).mp hpicked.queued
  subst hp
  have hresched : schedulerReschedule s now = some { s₁ with needResched := false } := by
    unfold schedulerReschedule
    rw [hpick]
    simp [hpicked.ne_zero]
  rw [hresched]
  refine iff_of_true ⟨_, rfl, ?_⟩
    ⟨fun h => absurd h hne, fun _ _ _ => hin, fun _ _ _ => ⟨?_, fun _ _ => hpicked.first⟩⟩
  · refine chooses_of_holds hq ?_ ?_ hpicked.holds (fun x hx hxne => ?_) fun h => ?_
    · rw [show ({ s₁ with needResched := false } : RunQueue).current = s.current from hpicked.current]
      exact hpicked.first
    · rw [show ({ s₁ with needResched := false } : RunQueue).current = s.current from hpicked.current]
      exact hne
    · have hxne : x ≠ s.current := fun h => hxne (h.trans hpicked.current.symm)
      exact (hpicked.queued_iff x).mpr ⟨hx.resolve_right fun h => hxne h.1, hxne⟩
    · exact hidle ((hpicked.queued_iff _).mp h).1
  · obtain ⟨a, ha⟩ := hin
    exact ⟨a, _, ha⟩

theorem keepsPrev_running_iff (hq : s.Holds q) (hpicked : s.Picked q p s₁) (hp : p ≠ s.current)
    (h0 : s.current ≠ 0) (hrun : (s.procs s.current).state = .running) :
    KeepsPrev s q ↔ s.current ≠ s.idle ∧ ¬s.Queued s.current := by
  obtain ⟨b, hin⟩ := (hq.queued_iff_inArray p).mp hpicked.queued
  constructor
  · rintro ⟨hkidle, -, hrunning⟩
    have hne : s.current ≠ s.idle := fun h => hkidle h (h ▸ hrun) b p hin
    refine ⟨hne, fun hqueued => hp ?_⟩
    obtain ⟨a, ha⟩ := (hq.queued_iff_inArray _).mp hqueued
    exact hpicked.first.unique ((hrunning h0 hne hrun).2 a ha)
  · rintro ⟨hne, hout⟩
    refine ⟨fun h => absurd h hne, fun _ _ hready => ?_, fun _ _ _ => ⟨⟨b, p, hin⟩, fun a ha => ?_⟩⟩
    · rw [hrun] at hready
      exact absurd hready (by decide)
    · exact absurd ((hq.queued_iff_inArray _).mpr ⟨a, ha⟩) hout

theorem switch_running_iff (hq : s.Holds q) (hidle : ¬s.Queued s.idle) (hpicked : s.Picked q p s₁)
    (hp : p ≠ s.current) (h0 : s.current ≠ 0) (hrun : (s.procs s.current).state = .running) :
    Chooses q s (switchTo (putBack s₁ s.current) p now) ↔ KeepsPrev s q := by
  have hpidle : p ≠ s.idle := fun h => hidle (h ▸ hpicked.queued)
  have hidle₁ : ¬s₁.Queued s.idle := fun h => hidle ((hpicked.queued_iff _).mp h).1
  obtain ⟨hholds, hqueued⟩ := putBack_holds hpicked.holds h0 (by rw [hpicked.procs]; exact hrun)
  have hsame : s₁.Queued s.current ↔ s.Queued s.current := by
    rw [hpicked.queued_iff]
    exact and_iff_left hp.symm
  rw [keepsPrev_running_iff hq hpicked hp h0 hrun]
  constructor
  · intro hchooses
    obtain ⟨q', hq', -, hidle'⟩ := hchooses.queued
    have hout : ¬s₁.Queued s.current := hholds.mp ⟨q', (switchTo_holds p now).mp hq'⟩
    refine ⟨fun heq => ?_, fun h => hout (hsame.mpr h)⟩
    have hin' : (switchTo (putBack s₁ s.current) p now).Queued s.idle :=
      (hqueued hout _).mpr (.inr heq.symm)
    obtain ⟨a, ha⟩ := (hq'.queued_iff_inArray _).mp hin'
    exact hidle' a ha
  · rintro ⟨hne, hout⟩
    have hout₁ : ¬s₁.Queued s.current := fun h => hout (hsame.mp h)
    have hqueued := hqueued hout₁
    refine chooses_of_holds hq hpicked.first hpidle
      ((hholds.mpr hout₁).imp fun _ => (switchTo_holds p now).mpr)
      (fun x hx hxp => (hqueued x).mpr ?_) fun h => ?_
    · exact hx.imp (fun h => (hpicked.queued_iff x).mpr ⟨h, hxp⟩) And.left
    · exact ((hqueued _).mp h).elim hidle₁ fun heq => hne heq.symm

theorem switch_resting_iff (hq : s.Holds q) (hnull : s.idle ≠ 0) (hidle : ¬s.Queued s.idle)
    (hpicked : s.Picked q p s₁) (hp : p ≠ s.current)
    (hrest : s.current ≠ 0 → (s.procs s.current).state ≠ .running) :
    Chooses q s (switchTo (putBack s₁ s.current) p now) ↔ KeepsPrev s q := by
  have hpidle : p ≠ s.idle := fun h => hidle (h ▸ hpicked.queued)
  have hidle₁ : ¬s₁.Queued s.idle := fun h => hidle ((hpicked.queued_iff _).mp h).1
  have hback : putBack s₁ s.current = s₁ := by
    refine if_neg fun h => hrest h.1 ?_
    rw [← hpicked.procs]
    exact h.2
  rw [hback]
  constructor
  · intro hchooses
    obtain ⟨q', hq', honce, -⟩ := hchooses.queued
    refine ⟨fun heq hr => ?_, fun h0 hne hready => ?_, fun h0 _ hr => absurd hr (hrest h0)⟩
    · exact absurd (heq ▸ hr) (hrest (heq ▸ hnull))
    · obtain ⟨a, i, hi, hcount, -⟩ := honce s.current (.inr ⟨rfl, h0, hne, .inl hready⟩) hp.symm
      have hin' : s₁.Queued s.current := (hq'.queued_iff s.current).mpr
        ⟨a, i, hi, List.count_pos_iff.mp (by omega)⟩
      exact (hq.queued_iff_inArray _).mp ((hpicked.queued_iff _).mp hin').1
  · rintro ⟨-, hready, -⟩
    refine chooses_of_holds hq hpicked.first hpidle
      (hpicked.holds.imp fun _ => (switchTo_holds p now).mpr) (fun x hx hxp => ?_) hidle₁
    refine (hpicked.queued_iff x).mpr ⟨hx.elim id ?_, hxp⟩
    rintro ⟨rfl, h0, hne, hr⟩
    exact (hq.queued_iff_inArray _).mpr (hready h0 hne (hr.resolve_right (hrest h0)))

theorem reschedule_other_iff (hq : s.Holds q) (hnull : s.idle ≠ 0) (hidle : ¬s.Queued s.idle)
    (hpicked : s.Picked q p s₁) (hpick : pickNext s = some (p, s₁)) (hp : p ≠ s.current) :
    (∃ s', schedulerReschedule s now = some s' ∧ Chooses q s s') ↔ KeepsPrev s q := by
  have hresched : schedulerReschedule s now = some (switchTo (putBack s₁ s.current) p now) := by
    unfold schedulerReschedule
    rw [hpick]
    simp [hpicked.ne_zero, hp]
  have hchooses : Chooses q s (switchTo (putBack s₁ s.current) p now) ↔ KeepsPrev s q := by
    by_cases hrun : s.current ≠ 0 ∧ (s.procs s.current).state = .running
    · exact switch_running_iff hq hidle hpicked hp hrun.1 hrun.2
    · exact switch_resting_iff hq hnull hidle hpicked hp fun h0 h => hrun ⟨h0, h⟩
  simp only [hresched, Option.some_inj, exists_eq_left', hchooses]

end RunQueue

open RunQueue

/-- Where the arrays hold the queues `q` and the idle process is in none of them, the choice is right just
when the previous process is where it belongs. -/
theorem reschedule_chooses_iff {s : RunQueue} {q : Node → List Node} (hq : s.Holds q)
    (hne : s.active ≠ s.expired) (hidle : s.idle ≠ 0) (hout : ∀ a, ¬InArray q a s.idle) (now : ℕ) :
    (∃ s', schedulerReschedule s now = some s' ∧ Chooses q s s') ↔ KeepsPrev s q := by
  have hout' : ¬s.Queued s.idle := fun h => by
    obtain ⟨a, ha⟩ := (hq.queued_iff_inArray _).mp h
    exact hout a ha
  rcases pickNext_picked hq hne with ⟨hpick, hnone⟩ | ⟨p, s₁, hpick, hpicked⟩
  · exact reschedule_none_iff hq hidle hpick hnone
  · by_cases hp : p = s.current
    · exact reschedule_same_iff hq hout' hpicked hpick hp
    · exact reschedule_other_iff hq hidle hout' hpicked hpick hp

theorem reschedule_chooses_waiting : ∃ s q s', s.Holds q ∧ s.Queued 3 ∧ s.Queued 4 ∧ s.current = 2 ∧
    s.PrevRunnable ∧ schedulerReschedule s 20 = some s' ∧ Chooses q s s' ∧ s'.current = 3 := by
  have hrun : ∃ s s', Exec (fun s c s' => s.Keeps c ∧ s.Step c s') (schedulerInit 1 hundreds)
      [.addProcess 2, .addProcess 3, .reschedule 5, .addProcess 4] s ∧ schedulerReschedule s 20 = some s' ∧
      s.current = 2 ∧ s.idle = 1 ∧ s.Queued 3 ∧ s.Queued 4 ∧ ¬s.Queued 1 ∧ ¬s.Queued 2 ∧
      (s.procs 2).state = .running ∧ s'.current = 3 :=
    ⟨_, _, .cons ⟨fun h => absurd h (by decide), rfl⟩ (.cons ⟨fun h => absurd h (by decide), rfl⟩
      (.cons ⟨trivial, rfl⟩ (.cons ⟨fun h => absurd h (by decide), rfl⟩ (.nil _)))), rfl, by decide +kernel⟩
  obtain ⟨s, s', hrun, hresched, hcurrent, hidle, hthree, hfour, hout, hprev, hstate, hcurrent'⟩ := hrun
  have hinv := run_inv hrun
  obtain ⟨q, hq⟩ := hinv.holds
  have hnull : s.idle ≠ 0 := by
    rw [hidle]
    decide
  have hnone : ∀ a, ¬InArray q a s.idle := fun a h =>
    hout ((hq.queued_iff_inArray 1).mpr ⟨a, hidle ▸ h⟩)
  have hne : s.current ≠ s.idle := by
    rw [hcurrent, hidle]
    decide
  have hrunning : (s.procs s.current).state = .running := hcurrent ▸ hstate
  have hkeeps : KeepsPrev s q := by
    refine ⟨fun h => absurd h hne, fun _ _ h => absurd (hrunning.symm.trans h) ProcessState.noConfusion,
      fun _ _ _ => ⟨?_, fun a h => ?_⟩⟩
    · obtain ⟨a, ha⟩ := (hq.queued_iff_inArray 3).mp hthree
      exact ⟨a, 3, ha⟩
    · exact absurd ((hq.queued_iff_inArray 2).mpr ⟨a, hcurrent ▸ h⟩) hprev
  obtain ⟨s'', hs'', hchooses⟩ := (reschedule_chooses_iff hq hinv.arrays_ne hnull hnone 20).mpr hkeeps
  obtain rfl := Option.some.inj (hresched.symm.trans hs'')
  have hrunnable : s.PrevRunnable := ⟨hcurrent.trans_ne (by decide), hne, .inr hrunning⟩
  exact ⟨s, q, s', hq, hthree, hfour, hcurrent, hrunnable, hresched, hchooses, hcurrent'⟩

/-- A process that runs alone gives way to the idle process; and the idle process that runs is queued when
another one waits. -/
theorem reschedule_misplaces_prev :
    (∃ s q s', s.Holds q ∧ s.active ≠ s.expired ∧ s.idle ≠ 0 ∧ ¬s.Queued s.idle ∧
      schedulerReschedule s 0 = some s' ∧ s.PrevRunnable ∧ s'.current = s.idle ∧ ¬Chooses q s s') ∧
    ∃ s q s', s.Holds q ∧ s.active ≠ s.expired ∧ s.idle ≠ 0 ∧ ¬s.Queued s.idle ∧
      schedulerReschedule s 0 = some s' ∧ s'.Queued s.idle ∧ ¬Chooses q s s' := by
  constructor
  · have hrun : ∃ s s', Exec (fun s c s' => s.Keeps c ∧ s.Step c s') (schedulerInit 1 hundreds)
        [.addProcess 2, .reschedule 0] s ∧ schedulerReschedule s 0 = some s' ∧
        (s.current ≠ 0 ∧ s.current ≠ s.idle ∧ (s.procs s.current).state = .running) ∧ s.idle ≠ 0 ∧
        ¬s.Queued s.idle ∧ s'.current = s.idle :=
      ⟨_, _, .cons ⟨fun h => absurd h (by decide), rfl⟩ (.cons ⟨trivial, rfl⟩ (.nil _)), rfl,
        by decide +kernel⟩
    obtain ⟨s, s', hrun, hresched, ⟨h0, hne, hstate⟩, hnull, hout, hcurrent⟩ := hrun
    have hinv := run_inv hrun
    obtain ⟨q, hq⟩ := hinv.holds
    have hprev : s.PrevRunnable := ⟨h0, hne, .inr hstate⟩
    exact ⟨s, q, s', hq, hinv.arrays_ne, hnull, hout, hresched, hprev, hcurrent,
      fun h => (h.idle hcurrent).2 hprev⟩
  · have hrun : ∃ s s', Exec (fun s c s' => s.Keeps c ∧ s.Step c s') (schedulerInit 1 hundreds)
        [.reschedule 0, .addProcess 2] s ∧ schedulerReschedule s 0 = some s' ∧ s.idle ≠ 0 ∧
        ¬s.Queued s.idle ∧ s'.Queued s.idle :=
      ⟨_, _, .cons ⟨trivial, rfl⟩ (.cons ⟨fun h => absurd h (by decide), rfl⟩ (.nil _)), rfl,
        by decide +kernel⟩
    obtain ⟨s, s', hrun, hresched, hnull, hout, hqueued⟩ := hrun
    have hinv := run_inv hrun
    obtain ⟨q, hq⟩ := hinv.holds
    refine ⟨s, q, s', hq, hinv.arrays_ne, hnull, hout, hresched, hqueued, fun h => ?_⟩
    obtain ⟨q', hq', -, hidle⟩ := h.queued
    obtain ⟨a, ha⟩ := (hq'.queued_iff_inArray _).mp hqueued
    exact hidle a ha

end GcAos.Preempt
