import GcAos.Sched.PreemptArrays
import Mathlib.Data.Fintype.Card

/-! The counters `nr_running` and `nr_blocked` over runs of the scheduler. -/

namespace GcAos.Preempt
open Lib

/-- The run queue, with the processes that were added or woken and not removed since. -/
structure Tracked where
  rq : RunQueue
  managed : Finset Ptr

namespace Tracked

def init (idle : Ptr) (procs : Ptr → Process) : Tracked := ⟨schedulerInit idle procs, ∅⟩

def manages (t : Tracked) : Call → Finset Ptr
  | .addProcess p => if (schedulerAddProcess t.rq p).1 = 0 then insert p t.managed else t.managed
  | .removeProcess p => if (schedulerRemoveProcess t.rq p).1 = 0 then t.managed.erase p else t.managed
  | .wake p => if (schedulerWake t.rq p).1 = 0 then insert p t.managed else t.managed
  | _ => t.managed

def Step (t : Tracked) (c : Call) (t' : Tracked) : Prop :=
  (t.rq.call c).map (fun s => ⟨s, t.manages c⟩) = some t'

def state (t : Tracked) (p : Ptr) : ProcessState := (t.rq.procs p).state

def runnable (t : Tracked) : Finset Ptr :=
  t.managed.filter fun p => p ≠ t.rq.idle ∧ (t.state p = .ready ∨ t.state p = .running)

def blocked (t : Tracked) : Finset Ptr := t.managed.filter fun p => t.state p = .blocked

structure Agrees (t : Tracked) : Prop where
  nrRunning : t.rq.nrRunning = t.runnable.card
  nrBlocked : t.rq.nrBlocked = t.blocked.card

/-- The calls that the counters are for, where they keep them right: a process that is added is neither
managed nor the idle one, one that is removed waits in the active array or is not managed, no process
blocks, and none is woken that does not run already. -/
def Accounts (t : Tracked) : Call → Prop
  | .addProcess p => p = 0 ∨ t.state p ≠ .ready ∧ t.state p ≠ .new ∨ p ∉ t.managed ∧ p ≠ t.rq.idle
  | .removeProcess p =>
      if t.rq.Queued p then ¬t.rq.On t.rq.expired p ∧ (p ≠ t.rq.idle ∨ t.rq.nrRunning = 0)
      else p ∉ t.managed
  | .reschedule _ => True
  | .block _ => t.rq.current = 0
  | .wake p => p = 0 ∨ t.state p = .ready ∨ t.state p = .running
  | _ => False

structure Counted (t : Tracked) : Prop where
  arrays : t.rq.Inv
  queued : ∀ p, t.rq.Queued p → t.state p = .ready ∧ (p ∈ t.managed ∨ p = t.rq.idle)
  current : t.rq.current ≠ 0 →
    t.state t.rq.current = .running ∧ (t.rq.current ∈ t.managed ∨ t.rq.current = t.rq.idle)
  idle : t.rq.idle ∉ t.managed
  null : 0 ∉ t.managed
  agrees : t.Agrees

variable {t t' : Tracked} {s s' : RunQueue} {p x : Ptr}

theorem init_counted (idle : Ptr) (procs : Ptr → Process) : (init idle procs).Counted where
  arrays := RunQueue.schedulerInit_inv idle procs
  queued _ hp := absurd rfl hp
  current h := absurd rfl h
  idle := Finset.notMem_empty _
  null := Finset.notMem_empty _
  agrees := ⟨rfl, rfl⟩

theorem Agrees.congr (h : t.Agrees) (hmanaged : t'.managed = t.managed) (hidle : t'.rq.idle = t.rq.idle)
    (hrunning : t'.rq.nrRunning = t.rq.nrRunning) (hblocked : t'.rq.nrBlocked = t.rq.nrBlocked)
    (hstate : ∀ p ∈ t.managed, t'.state p = t.state p ∨
      (t.state p = .ready ∨ t.state p = .running) ∧ (t'.state p = .ready ∨ t'.state p = .running)) :
    t'.Agrees := by
  have hrun : t'.runnable = t.runnable := by
    unfold runnable
    rw [hmanaged, hidle]
    apply Finset.filter_congr
    intro p hp
    rcases hstate p hp with hsame | ⟨hold, hnew⟩
    · rw [hsame]
    · exact and_congr_right fun _ => iff_of_true hnew hold
  have hblk : t'.blocked = t.blocked := by
    unfold blocked
    rw [hmanaged]
    apply Finset.filter_congr
    intro p hp
    rcases hstate p hp with hsame | ⟨hold, hnew⟩
    · rw [hsame]
    · refine iff_of_false ?_ ?_
      · rcases hnew with hnew | hnew <;> simp [hnew]
      · rcases hold with hold | hold <;> simp [hold]
  exact ⟨by rw [hrunning, hrun, h.nrRunning], by rw [hblocked, hblk, h.nrBlocked]⟩

theorem checkPreempt_eq (s : RunQueue) (p : Ptr) :
    ∃ b, checkPreempt s p = { s with needResched := b } := by
  unfold checkPreempt
  split
  · exact ⟨true, rfl⟩
  · exact ⟨s.needResched, rfl⟩

theorem modify_state (s : RunQueue) (p x : Ptr) (f : Process → Process) :
    ((s.modify p f).procs x).state = if x = p then (f (s.procs p)).state else (s.procs x).state := by
  split
  · next hx => rw [hx, RunQueue.modify_procs_self]
  · next hx => rw [RunQueue.modify_procs_of_ne hx]

theorem card_succ_mod {u : Finset Ptr} (hnull : 0 ∉ u) (hp : p ≠ 0) (hout : p ∉ u) :
    (u.card + 1) % 2 ^ 64 = (insert p u).card := by
  have hlt : (insert p u).card < Fintype.card Ptr := by
    apply Finset.card_lt_univ_of_notMem (x := 0)
    rw [Finset.mem_insert, not_or]
    exact ⟨hp.symm, hnull⟩
  rw [Fintype.card_fin, Finset.card_insert_of_notMem hout] at hlt
  rw [Finset.card_insert_of_notMem hout]
  exact Nat.mod_eq_of_lt hlt

theorem Agrees.added (h : t.Agrees) (hnull : 0 ∉ t.managed) (hp : p ≠ 0) (hout : p ∉ t.managed)
    (hne : p ≠ t.rq.idle) (hmanaged : t'.managed = insert p t.managed) (hidle : t'.rq.idle = t.rq.idle)
    (hself : t'.state p = .ready) (hother : ∀ x, x ≠ p → t'.state x = t.state x)
    (hrunning : t'.rq.nrRunning = (t.rq.nrRunning + 1) % 2 ^ 64)
    (hblocked : t'.rq.nrBlocked = t.rq.nrBlocked) : t'.Agrees := by
  have hrun : t'.runnable = insert p t.runnable := by
    unfold runnable
    ext x
    rw [hmanaged, hidle]
    simp only [Finset.mem_filter, Finset.mem_insert]
    by_cases hx : x = p
    · subst hx
      simp [hself, hne]
    · simp [hx, hother x hx]
  have hblk : t'.blocked = t.blocked := by
    unfold blocked
    ext x
    rw [hmanaged]
    simp only [Finset.mem_filter, Finset.mem_insert]
    by_cases hx : x = p
    · subst hx
      simp [hself, hout]
    · simp [hx, hother x hx]
  have hsub : t.runnable ⊆ t.managed := Finset.filter_subset ..
  refine ⟨?_, ?_⟩
  · rw [hrunning, h.nrRunning, hrun]
    exact card_succ_mod (fun hc => hnull (hsub hc)) hp fun hc => hout (hsub hc)
  · rw [hblocked, hblk, h.nrBlocked]

theorem addProcess_cases (s : RunQueue) (p : Ptr) :
    (∃ r, r ≠ 0 ∧ schedulerAddProcess s p = (r, s)) ∨
      p ≠ 0 ∧ ((s.procs p).state = .ready ∨ (s.procs p).state = .new) ∧
        ∃ b, schedulerAddProcess s p =
          (0, { prioArrayAdd (s.modify p fun p => { p with state := .ready }) s.active p with
            nrRunning := (s.nrRunning + 1) % 2 ^ 64, needResched := b }) := by
  unfold schedulerAddProcess
  split
  · exact .inl ⟨-1, by decide, rfl⟩
  · next hp =>
    split
    · exact .inl ⟨-2, by decide, rfl⟩
    · next hstate =>
      refine .inr ⟨hp, by tauto, ?_⟩
      dsimp only
      obtain ⟨b, hb⟩ := checkPreempt_eq
        { prioArrayAdd (s.modify p fun p => { p with state := .ready }) s.active p with
          nrRunning := (s.nrRunning + 1) % 2 ^ 64 } p
      exact ⟨b, congrArg _ hb⟩

theorem Counted.addProcess (h : t.Counted) (hk : t.Accounts (.addProcess p)) :
    Counted ⟨(schedulerAddProcess t.rq p).2, t.manages (.addProcess p)⟩ := by
  have hmanages : t.manages (.addProcess p) =
      if (schedulerAddProcess t.rq p).1 = 0 then insert p t.managed else t.managed := rfl
  rw [hmanages]
  rcases addProcess_cases t.rq p with ⟨r, hr, heq⟩ | ⟨hp, hready, b, heq⟩
  · rw [heq, if_neg hr]
    exact h
  · have hfresh : p ∉ t.managed ∧ p ≠ t.rq.idle := by
      refine (hk.resolve_left hp).resolve_left fun hc => ?_
      exact hready.elim hc.1 hc.2
    obtain ⟨hout, hidle⟩ := hfresh
    have hqueue : ¬t.rq.Queued p := fun hq => (h.queued p hq).2.elim hout hidle
    obtain ⟨hinv, hqueued⟩ := h.arrays.enqueue (f := fun p => { p with state := .ready })
      t.rq.active hp hqueue rfl
    rw [heq, if_pos rfl]
    dsimp only
    generalize hu : prioArrayAdd (t.rq.modify p fun p => { p with state := .ready }) t.rq.active p = u
      at hinv hqueued ⊢
    have hstate (x : Ptr) : (u.procs x).state = if x = p then .ready else t.state x := by
      rw [← hu]
      exact modify_state t.rq p x fun p => { p with state := .ready }
    have hself : (u.procs p).state = .ready := (hstate p).trans (if_pos rfl)
    have hother (x : Ptr) (hx : x ≠ p) : (u.procs x).state = t.state x := (hstate x).trans (if_neg hx)
    have hsame : u.idle = t.rq.idle ∧ u.current = t.rq.current ∧ u.nrBlocked = t.rq.nrBlocked := by
      rw [← hu]
      exact ⟨rfl, rfl, rfl⟩
    obtain ⟨hidle', hcurrent', hblocked'⟩ := hsame
    refine ⟨⟨hinv.holds, hinv.arrays_ne, hinv.running⟩, ?_, ?_, ?_, ?_, ?_⟩
    · intro x hx
      by_cases hxp : x = p
      · subst hxp
        exact ⟨hself, .inl (Finset.mem_insert_self ..)⟩
      · obtain ⟨hready', hmem⟩ := h.queued x (((hqueued x).mp hx).resolve_right hxp)
        exact ⟨(hother x hxp).trans hready', hmem.imp Finset.mem_insert_of_mem fun hx => hx.trans hidle'.symm⟩
    · intro hne
      have hne' : t.rq.current ≠ 0 := hcurrent' ▸ hne
      obtain ⟨hrun, hmem⟩ := h.current hne'
      have hcp : t.rq.current ≠ p := by
        rintro rfl
        exact hready.elim (fun hr => absurd (hrun.symm.trans hr) (by decide))
          fun hr => absurd (hrun.symm.trans hr) (by decide)
      dsimp only [state]
      rw [hcurrent', hidle']
      exact ⟨(hother _ hcp).trans hrun, hmem.imp_left Finset.mem_insert_of_mem⟩
    · dsimp only
      rw [hidle', Finset.mem_insert, not_or]
      exact ⟨Ne.symm hidle, h.idle⟩
    · rw [Finset.mem_insert, not_or]
      exact ⟨hp.symm, h.null⟩
    · exact h.agrees.added h.null hp hout hidle rfl hidle' hself hother rfl hblocked'

theorem Agrees.removed (h : t.Agrees) (hmem : p ∈ t.managed) (hne : p ≠ t.rq.idle)
    (hready : t.state p = .ready) (hmanaged : t'.managed = t.managed.erase p)
    (hidle : t'.rq.idle = t.rq.idle) (hstate : ∀ x, t'.state x = t.state x)
    (hrunning : t'.rq.nrRunning = if 0 < t.rq.nrRunning then t.rq.nrRunning - 1 else t.rq.nrRunning)
    (hblocked : t'.rq.nrBlocked = t.rq.nrBlocked) : t'.Agrees := by
  have hrun : t'.runnable = t.runnable.erase p := by
    unfold runnable
    rw [hmanaged, hidle, Finset.filter_erase]
    simp only [hstate]
  have hblk : t'.blocked = t.blocked := by
    unfold blocked
    ext x
    rw [hmanaged, Finset.mem_filter, Finset.mem_filter, Finset.mem_erase, hstate]
    by_cases hx : x = p
    · subst hx
      simp [hready]
    · simp [hx]
  have hin : p ∈ t.runnable := Finset.mem_filter.mpr ⟨hmem, hne, .inl hready⟩
  have hpos : 0 < t.runnable.card := Finset.card_pos.mpr ⟨p, hin⟩
  refine ⟨?_, ?_⟩
  · rw [hrunning, h.nrRunning, hrun, if_pos hpos, Finset.card_erase_of_mem hin]
  · rw [hblocked, hblk, h.nrBlocked]

theorem Counted.removeProcess (h : t.Counted) (hk : t.Accounts (.removeProcess p)) :
    Counted ⟨(schedulerRemoveProcess t.rq p).2, t.manages (.removeProcess p)⟩ := by
  have hmanages : t.manages (.removeProcess p) =
      if (schedulerRemoveProcess t.rq p).1 = 0 then t.managed.erase p else t.managed := rfl
  rw [hmanages]
  simp only [Accounts] at hk
  by_cases hp : p = 0
  · have heq : schedulerRemoveProcess t.rq p = (-1, t.rq) := if_pos hp
    have hr : (-1 : ℤ) ≠ 0 := by decide
    rw [heq, if_neg hr]
    exact h
  by_cases hq : t.rq.Queued p
  · rw [if_pos hq] at hk
    have heq : schedulerRemoveProcess t.rq p = (0, { prioArrayRemove t.rq t.rq.active p with
        nrRunning := if 0 < t.rq.nrRunning then t.rq.nrRunning - 1 else t.rq.nrRunning }) :=
      (if_neg hp).trans (if_pos hq)
    have hinv := h.arrays.removeProcess (p := p) hk.1
    obtain ⟨q, xs, ys, hholds, hsplit⟩ := h.arrays.mem_active hq hk.1
    have hqueued (x : Ptr) := RunQueue.prioArrayRemove_queued (x := x) hholds hsplit
    obtain ⟨hready, hmem⟩ := h.queued p hq
    rw [heq] at hinv ⊢
    rw [if_pos rfl]
    refine ⟨hinv, ?_, ?_, ?_, ?_, ?_⟩
    · intro x hx
      obtain ⟨hx, hne⟩ := (hqueued x).mp hx
      obtain ⟨hready', hmem'⟩ := h.queued x hx
      exact ⟨hready', hmem'.imp_left fun hm => Finset.mem_erase.mpr ⟨hne, hm⟩⟩
    · intro hne
      obtain ⟨hrun, hmem'⟩ := h.current hne
      refine ⟨hrun, hmem'.imp_left fun hm => Finset.mem_erase.mpr ⟨?_, hm⟩⟩
      intro (heq' : t.rq.current = p)
      rw [heq', hready] at hrun
      exact absurd hrun (by decide)
    · exact fun hc => h.idle (Finset.mem_of_mem_erase hc)
    · exact fun hc => h.null (Finset.mem_of_mem_erase hc)
    · by_cases hidle : p = t.rq.idle
      · -- the idle process is not counted, so nothing may be subtracted
        have hzero := hk.2.resolve_left (not_not.mpr hidle)
        refine h.agrees.congr ?_ rfl ?_ rfl fun x _ => .inl rfl
        · exact Finset.erase_eq_of_notMem (hidle ▸ h.idle)
        · dsimp only
          rw [hzero]
          rfl
      · exact h.agrees.removed (hmem.resolve_right hidle) hidle hready rfl rfl (fun _ => rfl) rfl rfl
  · rw [if_neg hq] at hk
    have heq : schedulerRemoveProcess t.rq p = (0, t.rq) := (if_neg hp).trans (if_neg hq)
    rw [heq, if_pos rfl, Finset.erase_eq_of_notMem hk]
    exact h

theorem putBack_state (s : RunQueue) (p : Ptr) :
    (∀ x, ((putBack s p).procs x).state = (s.procs x).state) ∨
      (s.procs p).state = .running ∧
        ∀ x, ((putBack s p).procs x).state = if x = p then .ready else (s.procs x).state := by
  unfold putBack
  split
  · next hrun =>
    refine .inr ⟨hrun.2, fun x => ?_⟩
    split
    · exact modify_state s p x fun p => { p with state := .ready, timeSlice := timesliceNs p.priority }
    · exact modify_state s p x fun p => { p with state := .ready }
  · exact .inl fun _ => rfl

theorem putBack_queued (h : s.Inv) (hx : (putBack s p).Queued x) :
    s.Queued x ∨ x = p ∧ p ≠ 0 := by
  by_cases hrun : p ≠ 0 ∧ (s.procs p).state = .running
  · exact ((h.putBack p).2 x hx).imp_right fun hxp => ⟨hxp, hrun.1⟩
  · have heq : putBack s p = s := if_neg hrun
    rw [heq] at hx
    exact .inl hx

theorem putBack_same (s : RunQueue) (p : Ptr) : (putBack s p).idle = s.idle ∧
    (putBack s p).nrRunning = s.nrRunning ∧ (putBack s p).nrBlocked = s.nrBlocked := by
  unfold putBack
  split
  · split <;> exact ⟨rfl, rfl, rfl⟩
  · exact ⟨rfl, rfl, rfl⟩

theorem switchTo_state (s : RunQueue) (next : Ptr) (now : ℕ) (x : Ptr) :
    ((switchTo s next now).procs x).state = if x = next then .running else (s.procs x).state :=
  modify_state s next x fun p => { p with state := .running, execStart := now }

/-- What a reschedule that switches does: the next process was queued or is the idle one, and the old one
goes from running to ready. -/
theorem reschedule_spec (h : s.Inv) {now : ℕ} (hstep : schedulerReschedule s now = some s') :
    s'.idle = s.idle ∧ s'.nrRunning = s.nrRunning ∧ s'.nrBlocked = s.nrBlocked ∧
      (∀ x, s'.Queued x → x ≠ s'.current ∧ (s.Queued x ∨ x = s.current ∧ s.current ≠ 0)) ∧
      ((s'.current = s.current ∧ s'.procs = s.procs) ∨
        (s.Queued s'.current ∨ s'.current = s.idle) ∧ (s'.procs s'.current).state = .running ∧
          ∀ x, x ≠ s'.current → (s'.procs x).state = (s.procs x).state ∨
            x = s.current ∧ (s.procs x).state = .running ∧ (s'.procs x).state = .ready) := by
  obtain ⟨picked, s₁, hpick, hcase⟩ := RunQueue.reschedule_cases hstep
  obtain ⟨picked', s₁', hpick', hinv, hsame, hqueued⟩ := RunQueue.pickNext_cases h
  obtain ⟨rfl, rfl⟩ := pair_inj (hpick.symm.trans hpick')
  generalize hnext : (if picked = 0 then s₁.idle else picked) = next at hcase
  -- the next process is in no queue any more, and came from one if it is not the idle one
  have hsub (x : Ptr) (hx : s₁.Queued x) : x ≠ next ∧ s.Queued x := by
    rcases hqueued with ⟨-, hnone⟩ | ⟨hpicked, -, hiff⟩
    · exact absurd hx (hnone x)
    · rw [if_neg hpicked] at hnext
      rw [← hnext]
      exact ((hiff x).mp hx).symm
  have hfrom : s.Queued next ∨ next = s.idle := by
    rcases hqueued with ⟨hpicked, -⟩ | ⟨hpicked, hq, -⟩
    · rw [if_pos hpicked, hsame.idle] at hnext
      exact .inr hnext.symm
    · rw [if_neg hpicked] at hnext
      exact .inl (hnext ▸ hq)
  rcases hcase with ⟨heq, rfl⟩ | ⟨next', rfl, hne, -, rfl⟩
  · refine ⟨hsame.idle, hsame.nrRunning, hsame.nrBlocked, fun x hx => ?_, .inl ⟨hsame.current, hsame.procs⟩⟩
    obtain ⟨hxn, hxq⟩ := hsub x hx
    refine ⟨?_, .inl hxq⟩
    rwa [heq, ← hsame.current] at hxn
  · obtain ⟨hidle, hrunning, hblocked⟩ := putBack_same s₁ s.current
    refine ⟨hidle.trans hsame.idle, hrunning.trans hsame.nrRunning, hblocked.trans hsame.nrBlocked, ?_, ?_⟩
    · intro x hx
      rcases putBack_queued hinv hx with hx | ⟨rfl, hnull'⟩
      · exact (hsub x hx).imp_right .inl
      · exact ⟨hne.symm, .inr ⟨rfl, hnull'⟩⟩
    · refine .inr ⟨hfrom, ?_, fun x hx => ?_⟩
      · exact (switchTo_state ..).trans (if_pos rfl)
      · have hx : x ≠ next' := hx
        rw [switchTo_state, if_neg hx, ← hsame.procs]
        rcases putBack_state s₁ s.current with hold | ⟨hrun, hnew⟩
        · exact .inl (hold x)
        · rw [hnew]
          split
          · next hxc => exact .inr ⟨hxc, hxc ▸ hrun, rfl⟩
          · exact .inl rfl

theorem Counted.reschedule (h : t.Counted) {now : ℕ} (hstep : schedulerReschedule t.rq now = some s') :
    Counted ⟨s', t.managed⟩ := by
  obtain ⟨hidle, hrunning, hblocked, hqueued, hcase⟩ := reschedule_spec h.arrays hstep
  have hinv := h.arrays.reschedule hstep
  refine ⟨hinv, ?_, ?_, hidle ▸ h.idle, h.null, ?_⟩
  · intro x hx
    obtain ⟨hne, hold⟩ := hqueued x hx
    -- a queued process does not run, so the old one has become ready
    have hready : (s'.procs x).state = t.state x → t.state x = .ready := by
      intro hsame
      rcases hold with hold | ⟨rfl, hnull⟩
      · exact (h.queued x hold).1
      · exact absurd hx (hinv.running _ (hsame.trans (h.current hnull).1))
    have hmem : x ∈ t.managed ∨ x = t.rq.idle := by
      rcases hold with hold | ⟨rfl, hnull⟩
      · exact (h.queued x hold).2
      · exact (h.current hnull).2
    refine ⟨?_, hmem.imp_right fun heq => heq.trans hidle.symm⟩
    rcases hcase with ⟨-, hprocs⟩ | ⟨-, -, hother⟩
    · have hsame : (s'.procs x).state = t.state x := by rw [hprocs]; rfl
      exact hsame.trans (hready hsame)
    · rcases hother x hne with hsame | ⟨-, -, hback⟩
      · exact hsame.trans (hready hsame)
      · exact hback
  · intro hne
    unfold state
    dsimp only at hne ⊢
    rw [hidle]
    rcases hcase with ⟨hcur, hprocs⟩ | ⟨hfrom, hrun, -⟩
    · rw [hcur] at hne ⊢
      rw [hprocs]
      exact h.current hne
    · refine ⟨hrun, ?_⟩
      rcases hfrom with hq | hq
      · exact (h.queued _ hq).2
      · exact .inr hq
  · refine h.agrees.congr rfl hidle hrunning hblocked fun x hx => ?_
    rcases hcase with ⟨-, hprocs⟩ | ⟨hfrom, hrun, hother⟩
    · exact .inl (by unfold state; rw [hprocs])
    · by_cases hxc : x = s'.current
      · subst hxc
        have hne : s'.current ≠ t.rq.idle := fun heq => h.idle (heq ▸ hx)
        exact .inr ⟨.inl (h.queued _ (hfrom.resolve_right hne)).1, .inr hrun⟩
      · exact (hother x hxc).imp_right fun hback => ⟨.inr hback.2.1, .inl hback.2.2⟩

theorem step_counted (h : t.Counted) {c : Call} (hk : t.Accounts c) (hstep : t.Step c t') : t'.Counted := by
  obtain ⟨s', hcall, rfl⟩ := Option.map_eq_some_iff.mp hstep
  cases c with
  | addProcess p => exact Option.some.inj hcall ▸ h.addProcess hk
  | removeProcess p => exact Option.some.inj hcall ▸ h.removeProcess hk
  | reschedule now => exact h.reschedule hcall
  | block now =>
    have heq : schedulerBlock t.rq now = schedulerReschedule t.rq now := if_neg (not_not.mpr hk)
    exact h.reschedule (heq.symm.trans hcall)
  | wake p =>
    -- such a process is left as it is
    have heq : ∃ r, r ≠ 0 ∧ schedulerWake t.rq p = (r, t.rq) := by
      unfold schedulerWake
      split
      · exact ⟨-1, by decide, rfl⟩
      · next hp => exact ⟨1, by decide, if_pos (hk.resolve_left hp)⟩
    obtain ⟨r, hr, heq⟩ := heq
    have hmanages : t.manages (.wake p) = t.managed := by
      dsimp only [manages]
      rw [heq]
      exact if_neg hr
    have hsame : s' = t.rq := by
      rw [← Option.some.inj hcall, heq]
    rw [hmanages, hsame]
    exact h
  | tick | yield | setPolicy | boostPriority | unboostPriority => exact hk.elim

end Tracked

/-- In a run whose calls all account for what they do, the counters are right in every state. -/
theorem counters_agree {idle : Ptr} {procs : Ptr → Process} {calls : List Call} {t : Tracked}
    (h : Exec (fun t c t' => t.Accounts c ∧ t.Step c t') (Tracked.init idle procs) calls t) : t.Agrees := by
  have hcounted : t.Counted := by
    apply Exec.invariant _ h (Tracked.init_counted idle procs)
    rintro t c t' ht ⟨hk, hstep⟩
    exact Tracked.step_counted ht hk hstep
  exact hcounted.agrees

theorem counters_agree_pair : ∃ t, t.Agrees ∧ t.rq.nrRunning = 1 ∧
    Exec (fun t c t' => t.Accounts c ∧ t.Step c t') (Tracked.init 1 hundreds)
      [.addProcess 2, .addProcess 3, .reschedule 5, .wake 2, .removeProcess 3] t := by
  have hrun : ∃ t, Exec (fun t c t' => t.Accounts c ∧ t.Step c t') (Tracked.init 1 hundreds)
      [.addProcess 2, .addProcess 3, .reschedule 5, .wake 2, .removeProcess 3] t ∧ t.rq.nrRunning = 1 := by
    refine ⟨_, .cons ⟨.inr (.inr (by decide)), rfl⟩ (.cons ⟨.inr (.inr (by decide)), rfl⟩
      (.cons ⟨trivial, rfl⟩ (.cons ⟨.inr (.inr (by decide)), rfl⟩ (.cons ⟨?_, rfl⟩ (.nil _))))), by rfl⟩
    simp only [Tracked.Accounts]
    rw [if_pos (by decide)]
    refine ⟨?_, .inl (by decide)⟩
    rintro ⟨q, hq, i, hi, hmem⟩
    have hprio : i = 100 := hq.placed _ i hi 3 hmem
    subst hprio
    exact absurd ((hq.bit _ 100 hi).mpr (List.ne_nil_of_mem hmem)) (by decide)
  obtain ⟨t, hrun, hone⟩ := hrun
  exact ⟨t, counters_agree hrun, hone, hrun⟩

theorem block_still_running : ∃ t,
    Exec Tracked.Step (Tracked.init 1 hundreds) [.addProcess 2, .reschedule 5, .block 10] t ∧ ¬t.Agrees := by
  refine ⟨_, .cons rfl (.cons rfl (.cons rfl (.nil _))), fun h => ?_⟩
  exact absurd h.nrRunning (by decide)

end GcAos.Preempt
