import GcAos.Sched.PreemptArrays

/-! Time slices over runs of the scheduler: every tick takes a fixed amount from an unsigned number. -/

namespace GcAos.Preempt
open Lib

/-- `process_create`, at the address that `alloc_process` returns. -/
def processCreate (s : RunQueue) (proc : Ptr) (priority : ℤ) : RunQueue :=
  if proc = 0 then s
  else
    let priority := if priority < 0 then 0 else priority
    let priority := if 139 < priority then 139 else priority
    s.modify proc fun _ =>
      { state := .new, priority := priority, basePriority := priority, timeSlice := 10 * 1000000 }

inductive SliceCall
  | create (proc : Ptr) (priority : ℤ)
  | addProcess (proc : Ptr)
  | setPolicy (proc : Ptr) (policy : Policy) (priority : ℤ)
  | wake (proc : Ptr)
  | yield (now : ℕ)
  | tick (now : ℕ)
  | reschedule (now : ℕ)

/-- The idle process as `process_init` makes it, and no other one. -/
def bootQueue (idle : Ptr) : RunQueue :=
  schedulerInit idle fun p =>
    if p = idle then { state := .ready, priority := 139, basePriority := 139 } else { state := .free }

def timesliceMaxNs : ℕ := schedTimesliceMax * 1000000

namespace SliceCall

def isTick : SliceCall → Bool
  | tick _ => true
  | _ => false

/-- The call may give the process `p` a new time slice. -/
def Refills (s : RunQueue) (p : Ptr) : SliceCall → Prop
  | create q _ | setPolicy q _ _ | wake q => q = p
  | yield _ => (s.procs p).state = .running
  | addProcess _ | tick _ | reschedule _ => False

end SliceCall

namespace RunQueue

def sliceCall (s : RunQueue) : SliceCall → Option RunQueue
  | .create proc priority => some (processCreate s proc priority)
  | .addProcess proc => s.call (.addProcess proc)
  | .setPolicy proc policy priority => s.call (.setPolicy proc policy priority)
  | .wake proc => s.call (.wake proc)
  | .yield now => s.call (.yield now)
  | .tick now => s.call (.tick now)
  | .reschedule now => s.call (.reschedule now)

def SliceStep (s : RunQueue) (c : SliceCall) (s' : RunQueue) : Prop := s.sliceCall c = some s'

def slice (s : RunQueue) (p : Ptr) : ℕ := (s.procs p).timeSlice

def Fits (s : RunQueue) (c : SliceCall) : Prop :=
  c.isTick = true → s.current ≠ 0 → schedTickNs ≤ s.slice s.current

instance (s : RunQueue) (c : SliceCall) : Decidable (s.Fits c) := inferInstanceAs (Decidable (_ → _))

def Bounded (s : RunQueue) : Prop := ∀ p, s.slice p ≤ timesliceMaxNs

/-- The process `p` has the processor when the call is made, and the call does not give it a new slice. -/
def Keeping (p : Ptr) (s : RunQueue) (c : SliceCall) (s' : RunQueue) : Prop :=
  s.current = p ∧ ¬c.Refills s p ∧ s.Fits c ∧ s.SliceStep c s'

def Marks (s : RunQueue) (c : SliceCall) : Prop := c.isTick = true ∧ (chargeCurrent s).needResched = true

variable {s s' s₁ : RunQueue} {a : ArrayId} {p x next : Ptr} {now : ℕ} {c : SliceCall}

/-! What the calls do to the slices. -/

theorem timesliceNs_le (priority : ℤ) : timesliceNs priority ≤ timesliceMaxNs := by
  unfold timesliceNs timesliceMaxNs schedulerGetTimeslice schedTimesliceMax schedTimesliceMin
    schedTimesliceDefault schedPrioNormal schedPrioIdle
  split_ifs <;> omega

def SlicesFrom (s s' : RunQueue) : Prop := ∀ x, s'.slice x = s.slice x ∨ s'.slice x ≤ timesliceMaxNs

theorem SlicesFrom.bounded (h : s.SlicesFrom s') (hs : s.Bounded) : s'.Bounded := fun x =>
  (h x).elim (fun heq => heq ▸ hs x) id

theorem modify_slice_of_ne (h : x ≠ p) (f : Process → Process) : (s.modify p f).slice x = s.slice x :=
  congrArg Process.timeSlice (modify_procs_of_ne h)

theorem modify_slice_self (s : RunQueue) (p : Ptr) (f : Process → Process) :
    (s.modify p f).slice p = (f (s.procs p)).timeSlice :=
  congrArg Process.timeSlice (modify_procs_self s p f)

theorem modify_slice {f : Process → Process} (hf : (f (s.procs p)).timeSlice = s.slice p) (x : Ptr) :
    (s.modify p f).slice x = s.slice x := by
  by_cases hx : x = p
  · rw [hx, modify_slice_self, hf]
  · exact modify_slice_of_ne hx f

theorem checkPreempt_slice (s : RunQueue) (p x : Ptr) : (checkPreempt s p).slice x = s.slice x := by
  unfold checkPreempt
  split <;> rfl

theorem addProcess_slice (s : RunQueue) (p x : Ptr) : (schedulerAddProcess s p).2.slice x = s.slice x := by
  unfold schedulerAddProcess
  split
  · rfl
  · split
    · rfl
    · rw [checkPreempt_slice]
      exact modify_slice (f := fun p => { p with state := .ready }) rfl x

theorem wake_slice_of_ne (h : x ≠ p) : (schedulerWake s p).2.slice x = s.slice x := by
  unfold schedulerWake
  split
  · rfl
  · split
    · rfl
    · rw [checkPreempt_slice]
      exact modify_slice_of_ne h fun p => { p with state := .ready, timeSlice := timesliceNs p.priority }

theorem wake_slice_self : (schedulerWake s p).2.slice p = s.slice p ∨
    (schedulerWake s p).2.slice p ≤ timesliceMaxNs := by
  unfold schedulerWake
  split
  · exact .inl rfl
  · split
    · exact .inl rfl
    · refine .inr ?_
      rw [checkPreempt_slice]
      exact (modify_slice_self s p fun p =>
        { p with state := .ready, timeSlice := timesliceNs p.priority }).trans_le (timesliceNs_le _)

theorem requeue_slice_of_ne (h : x ≠ p) (priority : ℤ) : (requeue s p priority).slice x = s.slice x := by
  have hset : (setPriority s p priority).slice x = s.slice x := modify_slice_of_ne h _
  unfold requeue
  split
  · exact hset
  · exact hset

theorem requeue_slice_self (s : RunQueue) (p : Ptr) (priority : ℤ) :
    (requeue s p priority).slice p = timesliceNs priority := by
  have hset : (setPriority s p priority).slice p = timesliceNs priority := modify_slice_self ..
  unfold requeue
  split
  · exact hset
  · exact hset

theorem setPolicy_cases (s : RunQueue) (p : Ptr) (policy : Policy) (priority : ℤ) :
    (schedulerSetPolicy s p policy priority).2 = s ∨ ∃ allowed b,
      (schedulerSetPolicy s p policy priority).2 = { requeue s p allowed with needResched := b } := by
  unfold schedulerSetPolicy
  split
  · exact .inl rfl
  · split
    · exact .inl rfl
    · next allowed _ =>
      refine .inr ⟨allowed, ?_⟩
      dsimp only
      split
      · exact ⟨true, rfl⟩
      · exact ⟨(requeue s p allowed).needResched, rfl⟩

theorem prioArrayPickNext_procs (h : prioArrayPickNext s a = some (next, s₁)) :
    s₁.procs = s.procs ∧ s₁.current = s.current := by
  unfold prioArrayPickNext at h
  split at h
  · obtain ⟨-, rfl⟩ := pair_inj h
    exact ⟨rfl, rfl⟩
  · split at h
    · obtain ⟨-, rfl⟩ := pair_inj h
      exact ⟨rfl, rfl⟩
    · exact absurd h (by simp)

theorem pickNext_procs (h : pickNext s = some (next, s₁)) :
    s₁.procs = s.procs ∧ s₁.current = s.current := by
  unfold pickNext at h
  obtain ⟨⟨first, s₂⟩, hpick, h⟩ := Option.bind_eq_some_iff.mp h
  obtain ⟨hprocs, hcurrent⟩ := prioArrayPickNext_procs hpick
  dsimp only at h
  split at h
  · obtain ⟨hprocs', hcurrent'⟩ := prioArrayPickNext_procs h
    exact ⟨hprocs'.trans hprocs, hcurrent'.trans hcurrent⟩
  · obtain ⟨-, rfl⟩ := pair_inj h
    exact ⟨hprocs, hcurrent⟩

theorem putBack_slice (s : RunQueue) (p x : Ptr) :
    (putBack s p).slice x = s.slice x ∨ s.slice x ≤ 0 ∧ (putBack s p).slice x ≤ timesliceMaxNs := by
  unfold putBack
  split
  · split
    · next hzero =>
      by_cases hx : x = p
      · subst hx
        exact .inr ⟨hzero, (modify_slice_self s x fun p =>
          { p with state := .ready, timeSlice := timesliceNs p.priority }).trans_le (timesliceNs_le _)⟩
      · exact .inl (modify_slice_of_ne hx fun p =>
          { p with state := .ready, timeSlice := timesliceNs p.priority })
    · exact .inl (modify_slice (f := fun p => { p with state := .ready }) rfl x)
  · exact .inl rfl

theorem reschedule_slice (h : schedulerReschedule s now = some s') (x : Ptr) :
    s'.slice x = s.slice x ∨
      s'.current ≠ s.current ∧ s.slice x ≤ 0 ∧ s'.slice x ≤ timesliceMaxNs := by
  obtain ⟨picked, s₁, hpick, hcase⟩ := reschedule_cases h
  obtain ⟨hprocs, -⟩ := pickNext_procs hpick
  have hsame : s₁.slice x = s.slice x := congrArg (fun procs => (procs x).timeSlice) hprocs
  rcases hcase with ⟨-, rfl⟩ | ⟨next, -, hne, -, rfl⟩
  · exact .inl hsame
  · have hswitch : (switchTo (putBack s₁ s.current) next now).slice x = (putBack s₁ s.current).slice x :=
      modify_slice (f := fun p => { p with state := .running, execStart := now }) rfl x
    rw [hswitch, ← hsame]
    exact (putBack_slice s₁ s.current x).imp_right fun h => ⟨hne, h⟩

theorem charge_timeSlice (p : Process) :
    (charge p).timeSlice = (p.timeSlice + (2 ^ 64 - schedTickNs)) % 2 ^ 64 := rfl

theorem boostStarved_timeSlice (p : Process) : (boostStarved p).timeSlice = p.timeSlice := by
  unfold boostStarved
  split <;> rfl

theorem chargeCurrent_slice_of_ne (h : x ≠ s.current) : (chargeCurrent s).slice x = s.slice x :=
  (modify_slice_of_ne h _).trans (modify_slice_of_ne h _)

theorem chargeCurrent_slice (s : RunQueue) : (chargeCurrent s).slice s.current =
    (s.slice s.current + (2 ^ 64 - schedTickNs)) % 2 ^ 64 := by
  have hcharge : (chargeCurrent s).slice s.current =
      (({ s with tickCount := (s.tickCount + 1) % 2 ^ 64 }.modify s.current charge).modify s.current
        boostStarved).slice s.current := rfl
  rw [hcharge, modify_slice_self, boostStarved_timeSlice, modify_procs_self, charge_timeSlice]
  rfl

theorem chargeCurrent_marks (h : (chargeCurrent s).slice s.current = 0) :
    (chargeCurrent s).needResched = true := by
  rw [chargeCurrent_slice] at h
  have hexhausted : ((({ s with tickCount := (s.tickCount + 1) % 2 ^ 64 }).modify s.current charge).procs
      s.current).timeSlice ≤ 0 := by
    rw [modify_procs_self, charge_timeSlice]
    exact h.le
  unfold chargeCurrent
  simp only [Bool.or_eq_true, decide_eq_true_eq]
  exact .inl (.inl hexhausted)

theorem chargeCurrent_slice_of_le (h : schedTickNs ≤ s.slice s.current) (hs : s.Bounded) :
    (chargeCurrent s).slice s.current = s.slice s.current - schedTickNs := by
  have hle := hs s.current
  rw [chargeCurrent_slice]
  unfold schedTickNs at h ⊢
  unfold timesliceMaxNs schedTimesliceMax at hle
  omega

theorem tick_cases (h : s.SliceStep (.tick now) s') : s.current = 0 ∧ s' = s ∨ s.current ≠ 0 ∧
    ((chargeCurrent s).needResched = false ∧ s' = chargeCurrent s ∨
      (chargeCurrent s).needResched = true ∧ schedulerReschedule (chargeCurrent s) now = some s') := by
  unfold SliceStep sliceCall call schedulerTick at h
  dsimp only at h
  split at h
  · next h0 => exact .inl ⟨h0, (Option.some.inj h).symm⟩
  · next h0 =>
    refine .inr ⟨h0, ?_⟩
    split at h
    · next hmark => exact .inr ⟨hmark, h⟩
    · next hmark => exact .inl ⟨by simpa using hmark, (Option.some.inj h).symm⟩

theorem reschedule_slicesFrom (h : schedulerReschedule s now = some s') : s.SlicesFrom s' := fun x =>
  (reschedule_slice h x).imp_right fun h => h.2.2

theorem step_bounded (hs : s.Bounded) (hfits : s.Fits c) (h : s.SliceStep c s') : s'.Bounded := by
  cases c with
  | create p priority =>
    obtain rfl := Option.some.inj h
    refine SlicesFrom.bounded (fun x => ?_) hs
    unfold processCreate
    split
    · exact .inl rfl
    · by_cases hx : x = p
      · subst hx
        have hnew : 10 * 1000000 ≤ timesliceMaxNs := by decide
        exact .inr ((modify_slice_self ..).trans_le hnew)
      · exact .inl (modify_slice_of_ne hx _)
  | addProcess p =>
    obtain rfl := Option.some.inj h
    exact SlicesFrom.bounded (fun x => .inl (addProcess_slice s p x)) hs
  | setPolicy p policy priority =>
    obtain rfl := Option.some.inj h
    refine SlicesFrom.bounded (fun x => ?_) hs
    rcases setPolicy_cases s p policy priority with heq | ⟨allowed, b, heq⟩
    · rw [heq]
      exact .inl rfl
    · rw [heq]
      by_cases hx : x = p
      · subst hx
        exact .inr ((requeue_slice_self s x allowed).trans_le (timesliceNs_le _))
      · exact .inl (requeue_slice_of_ne hx allowed)
  | wake p =>
    obtain rfl := Option.some.inj h
    refine SlicesFrom.bounded (fun x => ?_) hs
    by_cases hx : x = p
    · subst hx
      exact wake_slice_self
    · exact .inl (wake_slice_of_ne hx)
  | yield now =>
    change schedulerYield s now = some s' at h
    unfold schedulerYield at h
    split at h
    · refine (reschedule_slicesFrom h).bounded (SlicesFrom.bounded (s := s) (fun x => ?_) hs)
      by_cases hx : x = s.current
      · subst hx
        exact .inr ((modify_slice_self s s.current fun p =>
          { p with timeSlice := timesliceNs p.priority }).trans_le (timesliceNs_le _))
      · exact .inl (modify_slice_of_ne hx fun p => { p with timeSlice := timesliceNs p.priority })
    · exact (reschedule_slicesFrom h).bounded hs
  | tick now =>
    rcases tick_cases h with ⟨-, rfl⟩ | ⟨h0, hcase⟩
    · exact hs
    · have hcharge : (chargeCurrent s).Bounded := by
        intro x
        by_cases hx : x = s.current
        · subst hx
          rw [chargeCurrent_slice_of_le (hfits rfl h0) hs]
          exact (Nat.sub_le _ _).trans (hs _)
        · rw [chargeCurrent_slice_of_ne hx]
          exact hs x
      rcases hcase with ⟨-, rfl⟩ | ⟨-, hresched⟩
      · exact hcharge
      · exact (reschedule_slicesFrom hresched).bounded hcharge
  | reschedule now => exact (reschedule_slicesFrom h).bounded hs

theorem step_unbounded (hfits : ¬s.Fits c) (h : s.SliceStep c s') : ¬s'.Bounded := by
  unfold Fits at hfits
  push Not at hfits
  obtain ⟨htick, h0, hlt⟩ := hfits
  cases c with
  | tick now =>
    have hwrap : timesliceMaxNs < (chargeCurrent s).slice s.current := by
      rw [chargeCurrent_slice]
      unfold schedTickNs at hlt ⊢
      unfold timesliceMaxNs schedTimesliceMax
      omega
    intro hbounded
    rcases (tick_cases h).resolve_left fun h => h0 h.1 with ⟨-, ⟨-, rfl⟩ | ⟨-, hresched⟩⟩
    · exact absurd (hbounded s.current) (not_le.mpr hwrap)
    · rcases reschedule_slice hresched s.current with heq | ⟨-, hzero, -⟩
      · exact absurd (heq ▸ hbounded s.current) (not_le.mpr hwrap)
      · omega
  | _ => exact absurd htick Bool.false_ne_true

theorem Keeping.slice (h : Keeping p s c s') (hs : s.Bounded) (hp : p ≠ 0) (hmark : ¬s.Marks c) :
    (c.isTick = true → s.slice p = s'.slice p + schedTickNs ∧ 0 < s'.slice p) ∧
      (c.isTick = false → s'.current = p → s'.slice p = s.slice p) := by
  obtain ⟨rfl, hkeep, hfits, hstep⟩ := h
  refine ⟨fun htick => ?_, fun htick hcurrent => ?_⟩
  · cases c with
    | tick now =>
      have hfit := hfits rfl hp
      have hslice := chargeCurrent_slice_of_le hfit hs
      have hpos : (chargeCurrent s).slice s.current ≠ 0 := fun h0 => hmark ⟨rfl, chargeCurrent_marks h0⟩
      rcases (tick_cases hstep).resolve_left fun h => hp h.1 with ⟨-, ⟨-, rfl⟩ | ⟨hmarked, -⟩⟩
      · omega
      · exact absurd ⟨rfl, hmarked⟩ hmark
    | _ => exact absurd htick Bool.false_ne_true
  · have hresched {s₁ : RunQueue} {now : ℕ} (h₁ : s₁.current = s.current)
        (h : schedulerReschedule s₁ now = some s') : s'.slice s.current = s₁.slice s.current :=
      (reschedule_slice h s.current).resolve_right fun h => h.1 (hcurrent.trans h₁.symm)
    cases c with
    | create q priority =>
      obtain rfl := Option.some.inj hstep
      unfold processCreate
      split
      · rfl
      · exact modify_slice_of_ne (fun heq => hkeep heq.symm) _
    | addProcess q =>
      obtain rfl := Option.some.inj hstep
      exact addProcess_slice ..
    | setPolicy q policy priority =>
      obtain rfl := Option.some.inj hstep
      rcases setPolicy_cases s q policy priority with heq | ⟨allowed, b, heq⟩
      · rw [heq]
      · rw [heq]
        exact requeue_slice_of_ne (fun heq => hkeep heq.symm) allowed
    | wake q =>
      obtain rfl := Option.some.inj hstep
      exact wake_slice_of_ne fun heq => hkeep heq.symm
    | yield now =>
      change schedulerYield s now = some s' at hstep
      rw [schedulerYield, if_neg fun h => hkeep h.2] at hstep
      exact hresched rfl hstep
    | tick now => exact absurd htick (by simp [SliceCall.isTick])
    | reschedule now => exact hresched rfl hstep

theorem ticks_lt {calls : List SliceCall} (hp : p ≠ 0) (hs : s.Bounded)
    (h : Exec (fun s c s' => Keeping p s c s' ∧ ¬s.Marks c) s calls s') :
    calls.countP SliceCall.isTick = 0 ∨ calls.countP SliceCall.isTick * schedTickNs < s.slice p := by
  induction h with
  | nil => exact .inl rfl
  | @cons s u t c calls hst hrest ih =>
    obtain ⟨hkeep, hmark⟩ := hst
    obtain ⟨htick, hother⟩ := hkeep.slice hs hp hmark
    have ih := ih (step_bounded hs hkeep.2.2.1 hkeep.2.2.2)
    cases hc : c.isTick with
    | true =>
      obtain ⟨hslice, hpos⟩ := htick hc
      rw [List.countP_cons_of_pos hc]
      rcases ih with h0 | hlt
      · rw [h0]
        omega
      · rw [Nat.add_mul]
        omega
    | false =>
      rw [List.countP_cons_of_neg (by simp [hc])]
      cases hrest with
      | nil => exact .inl rfl
      | cons hnext _ =>
        -- the process is still current
        rwa [hother hc hnext.1.1] at ih

def ticksLeft (s : RunQueue) (p : Ptr) : ℕ := (s.slice p + (schedTickNs - 1)) / schedTickNs

theorem bootQueue_bounded (idle : Ptr) : (bootQueue idle).Bounded := by
  intro p
  have hzero : (bootQueue idle).slice p = 0 := by
    unfold slice bootQueue schedulerInit
    dsimp only
    split <;> rfl
  rw [hzero]
  exact Nat.zero_le _

end RunQueue

open RunQueue

/-- In a run whose ticks all find a whole tick left, the slices are bounded, and a process that keeps the
processor is marked in time. A tick that does not find it leads to a slice that is too large. -/
theorem time_slices_hold {idle : Ptr} {calls : List SliceCall} {s : RunQueue}
    (h : Exec (fun s c s' => s.Fits c ∧ s.SliceStep c s') (bootQueue idle) calls s) :
    s.Bounded ∧
    (∀ p ≠ 0, ∀ calls' s', Exec (Keeping p) s calls' s' → 0 < calls'.countP SliceCall.isTick →
      s.ticksLeft p ≤ calls'.countP SliceCall.isTick →
      ∃ before c after u, calls' = before ++ c :: after ∧ Exec (Keeping p) s before u ∧ u.Marks c ∧
        before.countP SliceCall.isTick < max (s.ticksLeft p) 1) ∧
    ∀ c s', ¬s.Fits c → s.SliceStep c s' → ¬s'.Bounded := by
  have hs : s.Bounded := by
    apply Exec.invariant _ h (bootQueue_bounded idle)
    rintro s c s' hs ⟨hfits, hstep⟩
    exact step_bounded hs hfits hstep
  refine ⟨hs, fun p hp calls' s' hkeep hticks hleft => ?_, fun c s' hfits hstep => step_unbounded hfits hstep⟩
  have hlast {n : ℕ} (hlt : n = 0 ∨ n * schedTickNs < s.slice p) : n < max (s.ticksLeft p) 1 := by
    unfold ticksLeft schedTickNs at *
    omega
  rcases hkeep.and_not_or Marks with hnone | ⟨before, c, after, u, hsplit, hbefore, hmark⟩
  · have := hlast (ticks_lt hp hs hnone)
    omega
  · refine ⟨before, c, after, u, hsplit, hbefore.mono fun _ _ _ h => h.1, hmark, ?_⟩
    exact hlast (ticks_lt hp hs hbefore)

theorem time_slices_hold_three_ticks : ∃ s : RunQueue, s.Bounded ∧ s.current = 2 ∧
    s.slice 2 = 3 * schedTickNs ∧
    ∃ before c after u, [SliceCall.tick 1, .tick 2, .tick 3] = before ++ c :: after ∧
      Exec (Keeping 2) s before u ∧ u.Marks c ∧ before.countP SliceCall.isTick < 3 := by
  have hrun : ∃ s s' : RunQueue, Exec (fun s c s' => s.Fits c ∧ s.SliceStep c s') (bootQueue 1)
      [.create 2 105, .setPolicy 2 .normal 120, .addProcess 2, .reschedule 0] s ∧
      Exec (Keeping 2) s [.tick 1, .tick 2, .tick 3] s' ∧ s.current = 2 ∧ s.slice 2 = 3 * schedTickNs :=
    ⟨_, _, .cons ⟨by decide, rfl⟩ (.cons ⟨by decide, rfl⟩ (.cons ⟨by decide, rfl⟩
      (.cons ⟨by decide, rfl⟩ (.nil _)))), .cons ⟨rfl, id, by decide, rfl⟩ (.cons ⟨rfl, id, by decide, rfl⟩
      (.cons ⟨rfl, id, by decide, rfl⟩ (.nil _))), rfl, rfl⟩
  obtain ⟨s, s', hrun, hkeep, hcurrent, hslice⟩ := hrun
  obtain ⟨hs, hmark, -⟩ := time_slices_hold hrun
  have hleft : s.ticksLeft 2 = 3 := by
    unfold ticksLeft
    rw [hslice]
    rfl
  have h := hmark 2 (by decide) _ s' hkeep (by decide) (by rw [hleft]; decide)
  rw [hleft] at h
  exact ⟨s, hs, hcurrent, hslice, h⟩

/-- A slice of 45 ms lasts for four ticks and a half: the fifth one wraps it, and the process is not
marked. -/
theorem slice_wraps : ∃ s s' : RunQueue,
    Exec SliceStep (bootQueue 1) [.create 2 105, .setPolicy 2 .normal 105, .addProcess 2, .reschedule 0] s ∧
    s.current = 2 ∧ s.ticksLeft 2 = 5 ∧ Exec SliceStep s [.tick 1, .tick 2, .tick 3, .tick 4, .tick 5] s' ∧
    s'.current = 2 ∧ s'.needResched = false ∧ timesliceMaxNs < s'.slice 2 := by
  refine ⟨_, _, .cons rfl (.cons rfl (.cons rfl (.cons rfl (.nil _)))), rfl, rfl,
    .cons rfl (.cons rfl (.cons rfl (.cons rfl (.cons rfl (.nil _))))), ?_⟩
  decide +kernel

end GcAos.Preempt
