import GcAos.Lib.Exec
import GcAos.Lib.Locks
import GcAos.Proc.Modern

/-! The locks of `core/process_modern.c`. There is one lock, that of the process manager. -/

namespace GcAos.Sync
open Lib Proc.Modern LockAct

section Calls

variable (s : ProcessManager)

def allocPidLocks : List (LockAct Unit) := under () []

/-- The process is registered in a section of its own. -/
def processCreateLocks (name : Option String) (entry : ℕ) (mem : Option ℕ) (stack : Bool) :
    List (LockAct Unit) :=
  if name = none ∨ entry = 0 ∨ mem = none then []
  else allocPidLocks ++ if s.allocPid = none ∨ stack = false then [] else under () []

def processLocks (proc : Option ℕ) : List (LockAct Unit) := if proc = none then [] else under () []

def processStartLocks (proc : Option ℕ) : List (LockAct Unit) := processLocks proc

def processDestroyLocks (proc : Option ℕ) : List (LockAct Unit) := processLocks proc

def processWakeLocks (proc : Option ℕ) : List (LockAct Unit) := processLocks proc

def processGetLocks (pid : ℤ) : List (LockAct Unit) :=
  if pid < 0 ∨ maxProcesses ≤ pid then [] else under () []

def processScheduleLocks : List (LockAct Unit) := under () []

/-- `if (proc == process_current()) process_schedule();` -/
def rescheduleLocks (a : ℕ) : List (LockAct Unit) := if a = s.current then processScheduleLocks else []

/-- The parent that waits for the process at `a`. -/
def waitingParent (a : ℕ) : Option ℕ := (s.process a).bind Process.waitingParent

/-- The parent is woken inside the section. -/
def processKillLocks (pid : ℤ) : List (LockAct Unit) :=
  processGetLocks pid ++
    match s.processGet pid with
    | none => []
    | some a => if pid = 0 then [] else under ()
        (processWakeLocks (waitingParent s a)) ++ rescheduleLocks s a

def processExitLocks : List (LockAct Unit) :=
  match s.process s.current with
  | none => []
  | some p => processKillLocks s p.pid

/-- `process_sleep` and `process_block`. -/
def processStopLocks (proc : Option ℕ) : List (LockAct Unit) :=
  under () [] ++ rescheduleLocks s (proc.getD s.current)

def processSetPriorityLocks (proc : Option ℕ) (priority : ℤ) : List (LockAct Unit) :=
  if proc = none ∨ priority < 0 ∨ 139 < priority then [] else under () []

end Calls

/-- The calls, with the arguments that their locks depend on. -/
inductive ProcessOp
  | processCreate (name : Option String) (entry : ℕ) (mem : Option ℕ) (stack : Bool)
  | processStart (proc : Option ℕ)
  | processKill (pid : ℤ)
  | processExit
  | processDestroy (proc : Option ℕ)
  | processSchedule | processYield
  | processSleep (proc : Option ℕ)
  | processWake (proc : Option ℕ)
  | processBlock (proc : Option ℕ)
  | processUnblockAll
  | processGet (pid : ℤ)
  | processCount | processCountReady
  | processSetPriority (proc : Option ℕ) (priority : ℤ)
  | processGetInfo (pid : ℤ)
  /-- The calls that take no lock. -/
  | processSystemInit | processCreateUser | processSwitchContext | processCurrent

namespace ProcessOp

def locks (s : ProcessManager) : ProcessOp → List (LockAct Unit)
  | processCreate name entry mem stack => processCreateLocks s name entry mem stack
  | processStart proc => processStartLocks proc
  | processKill pid => processKillLocks s pid
  | processExit => processExitLocks s
  | processDestroy proc => processDestroyLocks proc
  | processSchedule => processScheduleLocks
  | processYield => processScheduleLocks
  | processSleep proc => processStopLocks s proc
  | processWake proc => processWakeLocks proc
  | processBlock proc => processStopLocks s proc
  | processUnblockAll => under () []
  | processGet pid => processGetLocks pid
  | processCount => under () []
  | processCountReady => under () []
  | processSetPriority proc priority => processSetPriorityLocks proc priority
  | processGetInfo pid => processGetLocks pid
  | _ => []

/-- No parent waits for a process that is killed. -/
def KillSafe (s : ProcessManager) (pid : ℤ) : Prop :=
  pid ≠ 0 → ∀ a, s.processGet pid = some a → waitingParent s a = none

def Safe (s : ProcessManager) : ProcessOp → Prop
  | processKill pid => KillSafe s pid
  | processExit => ∀ p, s.process s.current = some p → KillSafe s p.pid
  | _ => True

end ProcessOp

variable {s : ProcessManager}

theorem returns_reschedule (s : ProcessManager) (a : ℕ) : Returns [] (rescheduleLocks s a) := by
  unfold rescheduleLocks
  split
  · exact returns_alone ()
  · exact returns_nil

theorem returns_processCreate (s : ProcessManager) (name : Option String) (entry : ℕ)
    (mem : Option ℕ) (stack : Bool) :
    Returns [] (processCreateLocks s name entry mem stack) := by
  unfold processCreateLocks
  split
  · exact returns_nil
  · exact (returns_alone ()).append (returns_checked _ ())

theorem returns_processKill {pid : ℤ} (hsafe : ProcessOp.KillSafe s pid) :
    Returns [] (processKillLocks s pid) := by
  refine (returns_checked _ ()).append ?_
  split
  · exact returns_nil
  next a hget =>
    split
    · exact returns_nil
    next hpid =>
      rw [hsafe hpid a hget]
      exact (returns_alone ()).append (returns_reschedule s a)

theorem deadlocks_processKill {pid : ℤ} {a : ℕ} (hpid : pid ≠ 0) (hget : s.processGet pid = some a)
    (hwaiting : waitingParent s a ≠ none) : Deadlocks [] (processKillLocks s pid) := by
  refine (returns_checked _ ()).append_deadlocks ?_
  rw [hget]
  dsimp only
  rw [if_neg hpid]
  refine (Deadlocks.under ?_).append _
  rw [processWakeLocks, processLocks, if_neg hwaiting]
  exact deadlocks_under List.mem_cons_self []

theorem kill_deadlocks_iff (s : ProcessManager) (pid : ℤ) :
    ¬Deadlocks [] (processKillLocks s pid) ↔ ProcessOp.KillSafe s pid :=
  ⟨fun hfree hpid _ hget => by_contra fun hwaiting => hfree (deadlocks_processKill hpid hget hwaiting),
    fun hsafe => (returns_processKill hsafe).not_deadlocks⟩

theorem exit_deadlocks_iff (s : ProcessManager) :
    ¬Deadlocks [] (processExitLocks s) ↔ ProcessOp.Safe s .processExit := by
  cases hp : s.process s.current with
  | none =>
    rw [processExitLocks, hp]
    exact iff_of_true returns_nil.not_deadlocks fun p hp' =>
      absurd (hp.symm.trans hp').symm (Option.some_ne_none p)
  | some p =>
    rw [processExitLocks, hp]
    refine (kill_deadlocks_iff s p.pid).trans ⟨fun hsafe q hq => ?_, fun hsafe => hsafe p hp⟩
    obtain rfl := Option.some.inj (hp.symm.trans hq)
    exact hsafe

theorem process_deadlocks_iff (s : ProcessManager) (op : ProcessOp) : ¬Deadlocks [] (op.locks s) ↔
    op.Safe s := by
  have htrue : ∀ {acts : List (LockAct Unit)}, Returns [] acts → (¬Deadlocks [] acts ↔ True) :=
      fun hacts =>
    iff_of_true hacts.not_deadlocks trivial
  cases op with
  | processKill pid => exact kill_deadlocks_iff s pid
  | processExit => exact exit_deadlocks_iff s
  | processCreate => exact htrue (returns_processCreate _ _ _ _ _)
  | processStart proc => exact htrue (returns_checked _ ())
  | processDestroy proc => exact htrue (returns_checked _ ())
  | processSchedule => exact htrue (returns_alone ())
  | processYield => exact htrue (returns_alone ())
  | processSleep proc => exact htrue ((returns_alone ()).append (returns_reschedule _ _))
  | processWake proc => exact htrue (returns_checked _ ())
  | processBlock proc => exact htrue ((returns_alone ()).append (returns_reschedule _ _))
  | processUnblockAll => exact htrue (returns_alone ())
  | processGet pid => exact htrue (returns_checked _ ())
  | processCount => exact htrue (returns_alone ())
  | processCountReady => exact htrue (returns_alone ())
  | processSetPriority proc priority => exact htrue (returns_checked _ ())
  | processGetInfo pid => exact htrue (returns_checked _ ())
  | _ => exact htrue returns_nil

/-! Nothing makes a parent wait, so no call of a run deadlocks. -/

def NoWaiter (s : ProcessManager) : Prop := ∀ a p, s.process a = some p → p.waitingParent = none

namespace NoWaiter

variable {t : ProcessManager}

theorem congr (h : NoWaiter s) (hprocess : t.process = s.process) : NoWaiter t := fun a p ha =>
  h a p (by rwa [← hprocess])

theorem update (h : NoWaiter s) {a : ℕ} {x : Option Process} (hx : ∀ p ∈ x, p.waitingParent = none)
    (hprocess : t.process = Function.update s.process a x) : NoWaiter t := by
  intro b p hb
  rw [hprocess] at hb
  by_cases hba : b = a
  · subst hba
    rw [Function.update_self] at hb
    exact hx p hb
  · rw [Function.update_of_ne hba] at hb
    exact h b p hb

theorem modify (h : NoWaiter s) (a : ℕ) {f : Process → Process}
    (hf : ∀ p, (f p).waitingParent = p.waitingParent) : NoWaiter (s.modify a f) := by
  refine h.update (fun q hq => ?_) rfl
  obtain ⟨p, hp, rfl⟩ := Option.map_eq_some_iff.mp hq
  rw [hf]
  exact h a p hp

theorem unqueue (h : NoWaiter s) (a : ℕ) : NoWaiter (s.unqueue a) := by
  refine h.congr ?_
  unfold ProcessManager.unqueue
  split <;> rfl

theorem freeProcess (h : NoWaiter s) (a : ℕ) : NoWaiter (s.freeProcess a) :=
  h.update (fun p hp => absurd hp (Option.not_mem_none p)) rfl

theorem start (idle : ℕ) : NoWaiter (processSystemInit idle) := by
  have hnone : NoWaiter { current := idle, idleProcess := idle } := fun a p ha =>
      absurd ha.symm (Option.some_ne_none p)
  refine hnone.update (fun p hp => ?_) rfl
  obtain rfl := Option.some.inj hp
  rfl

theorem linkParent (h : NoWaiter s) {a : ℕ} (ht : s.linkParent a = some t) : NoWaiter t := by
  unfold ProcessManager.linkParent at ht
  split at ht
  · obtain rfl := Option.some.inj ht
    exact h
  · obtain ⟨_, -, hrest⟩ := Option.bind_eq_some_iff.mp ht
    obtain rfl := Option.some.inj hrest
    refine modify (modify h a fun p => ?_) _ fun p => ?_
    · rfl
    · rfl

theorem processCreate (h : NoWaiter s) {name : Option String} {entry : ℕ} {priority : ℤ}
    {mem : Option ℕ}
    {stack : Bool} {now : UInt64} {r : Option ℕ}
    (ht : s.processCreate name entry priority mem stack now = some (t, r)) : NoWaiter t := by
  unfold ProcessManager.processCreate at ht
  split at ht
  · obtain ⟨rfl, -⟩ := pair_inj ht
    exact h
  cases mem with
  | none =>
    obtain ⟨rfl, -⟩ := pair_inj ht
    exact h
  | some a =>
    have hfresh : NoWaiter { s with process := Function.update s.process a (some {}) } := by
      refine h.update (fun p hp => ?_) rfl
      obtain rfl := Option.some.inj hp
      rfl
    dsimp only at ht
    split at ht
    · obtain ⟨rfl, -⟩ := pair_inj ht
      exact hfresh.freeProcess a
    next pid hpid =>
      split at ht
      · obtain ⟨rfl, -⟩ := pair_inj ht
        exact (hfresh.congr rfl).freeProcess a
      · obtain ⟨u, hlink, hrest⟩ := Option.bind_eq_some_iff.mp ht
        obtain ⟨rfl, -⟩ := pair_inj hrest
        have hinit : NoWaiter u := by
          refine linkParent (modify (hfresh.congr ?_) a fun p => ?_) hlink
          · rfl
          · rfl
        exact hinit.congr rfl

theorem processStart (h : NoWaiter s) {proc : Option ℕ} {ret : ℤ}
    (ht : s.processStart proc = some (t, ret)) :
    NoWaiter t := by
  cases proc with
  | none =>
    obtain ⟨rfl, -⟩ := pair_inj ht
    exact h
  | some a =>
    obtain ⟨p, -, hrest⟩ := Option.bind_eq_some_iff.mp ht
    split at hrest
    · obtain ⟨rfl, -⟩ := pair_inj hrest
      exact h
    · obtain ⟨rfl, -⟩ := pair_inj hrest
      refine congr (modify h a fun p => ?_) (by rfl)
      rfl

theorem requeueCurrent (h : NoWaiter s) (p : Process) : NoWaiter (s.requeueCurrent p) := by
  unfold ProcessManager.requeueCurrent
  split
  · refine congr (unqueue (modify h s.current fun p => ?_) s.current) (by rfl)
    rfl
  · exact h

theorem switchContext (h : NoWaiter s) (next : ℕ) (now : UInt64) :
    NoWaiter (s.switchContext next now) := by
  unfold ProcessManager.switchContext
  split
  · exact h
  · refine modify (modify (congr h ?_) s.current fun p => ?_) next fun p => ?_
    · rfl
    · rfl
    · rfl

theorem processSchedule (h : NoWaiter s) {now : UInt64} (ht : s.processSchedule now = some t) :
    NoWaiter t := by
  obtain ⟨p, -, hrest⟩ := Option.bind_eq_some_iff.mp ht
  obtain ⟨q, -, hrest⟩ := Option.bind_eq_some_iff.mp hrest
  obtain rfl := Option.some.inj hrest
  refine switchContext (unqueue (modify (h.requeueCurrent p) _ fun p => ?_) _) _ now
  rfl

theorem reschedule (h : NoWaiter s) {a : ℕ} {now : UInt64} (ht : s.reschedule a now = some t) :
    NoWaiter t := by
  unfold ProcessManager.reschedule at ht
  split at ht
  · exact h.processSchedule ht
  · obtain rfl := Option.some.inj ht
    exact h

theorem processSleep (h : NoWaiter s) {proc : Option ℕ} {nanoseconds now : UInt64}
    (ht : s.processSleep proc nanoseconds now = some t) : NoWaiter t := by
  obtain ⟨p, -, hrest⟩ := Option.bind_eq_some_iff.mp ht
  refine reschedule (unqueue (modify h _ fun p => ?_) _) hrest
  rfl

theorem processBlock (h : NoWaiter s) {proc : Option ℕ} {obj : ℕ} {now : UInt64}
    (ht : s.processBlock proc obj now = some t) : NoWaiter t := by
  obtain ⟨p, -, hrest⟩ := Option.bind_eq_some_iff.mp ht
  refine reschedule (unqueue (modify h _ fun p => ?_) _) hrest
  rfl

theorem processWake (h : NoWaiter s) {proc : Option ℕ} {ret : ℤ}
    (ht : s.processWake proc = some (t, ret)) :
    NoWaiter t := by
  cases proc with
  | none =>
    obtain ⟨rfl, -⟩ := pair_inj ht
    exact h
  | some a =>
    obtain ⟨p, -, hrest⟩ := Option.bind_eq_some_iff.mp ht
    split at hrest
    · obtain ⟨rfl, -⟩ := pair_inj hrest
      exact h
    · obtain ⟨rfl, -⟩ := pair_inj hrest
      have hmodify : NoWaiter (s.modify a
          fun p => { p with state := .ready, sleepUntil := 0, wakeCount := p.wakeCount + 1 }) := by
        refine modify h a fun p => ?_
        rfl
      split
      · exact hmodify
      · exact hmodify.congr rfl

theorem unblock (h : NoWaiter s) {obj a : ℕ} (ht : ProcessManager.unblock obj s a = some t) :
    NoWaiter t := by
  obtain ⟨p, -, hrest⟩ := Option.bind_eq_some_iff.mp ht
  split at hrest
  · obtain rfl := Option.some.inj hrest
    have hmodify : NoWaiter (s.modify a fun p => { p with waitObj := 0, state := .ready }) := by
      refine modify h a fun p => ?_
      rfl
    split
    · exact hmodify
    · exact hmodify.congr rfl
  · obtain rfl := Option.some.inj hrest
    exact h

theorem orphan (h : NoWaiter s) (l : List ℕ) :
    NoWaiter (l.foldl (fun s child => s.modify child fun p => { p with parent := none }) s) := by
  induction l generalizing s with
  | nil => exact h
  | cons c l ih =>
    refine ih (modify h c fun p => ?_)
    rfl

theorem processKill (h : NoWaiter s) {pid exitCode ret : ℤ} {now : UInt64}
    (ht : s.processKill pid exitCode now = some (t, ret)) : NoWaiter t := by
  unfold ProcessManager.processKill at ht
  split at ht
  · obtain ⟨rfl, -⟩ := pair_inj ht
    exact h
  next a hget =>
    split at ht
    · obtain ⟨rfl, -⟩ := pair_inj ht
      exact h
    · obtain ⟨p, hp, hrest⟩ := Option.bind_eq_some_iff.mp ht
      rw [if_neg (not_not.mpr (h a p hp))] at hrest
      obtain ⟨u, hsched, hrest⟩ := Option.bind_eq_some_iff.mp hrest
      obtain ⟨rfl, -⟩ := pair_inj hrest
      have hmark : NoWaiter (s.modify a fun p =>
          { p with exitCode := exitCode, state := .zombie }) := by
        refine modify h a fun p => ?_
        rfl
      exact reschedule (congr ((hmark.unqueue a).orphan p.children) (by rfl)) hsched

theorem processDestroy (h : NoWaiter s) {proc : Option ℕ} (ht : s.processDestroy proc = some t) :
    NoWaiter t := by
  cases proc with
  | none =>
    obtain rfl := Option.some.inj ht
    exact h
  | some a =>
    obtain ⟨p, -, hrest⟩ := Option.bind_eq_some_iff.mp ht
    obtain ⟨parent, -, hrest⟩ := Option.bind_eq_some_iff.mp hrest
    obtain ⟨q, -, hrest⟩ := Option.bind_eq_some_iff.mp hrest
    obtain rfl := Option.some.inj hrest
    have hlisted : NoWaiter { s with allProcesses := s.allProcesses.erase a } := h.congr rfl
    have hparent : NoWaiter ({ s with allProcesses := s.allProcesses.erase a }.modify parent
        fun q => { q with children := q.children.erase a }) := by
      refine modify hlisted parent fun q => ?_
      rfl
    exact freeProcess (congr (hparent.unqueue a) (by rfl)) a

theorem step (h : NoWaiter s) {c : ProcessStep} (ht : c.run s = some t) : NoWaiter t := by
  cases c with
  | processCreate name entry priority mem stack now =>
    obtain ⟨⟨u, r⟩, hu, rfl⟩ := Option.map_eq_some_iff.mp ht
    exact h.processCreate hu
  | processStart proc =>
    obtain ⟨⟨u, r⟩, hu, rfl⟩ := Option.map_eq_some_iff.mp ht
    exact h.processStart hu
  | processSchedule now => exact h.processSchedule ht
  | processSleep proc nanoseconds now => exact h.processSleep ht
  | processWake proc =>
    obtain ⟨⟨u, r⟩, hu, rfl⟩ := Option.map_eq_some_iff.mp ht
    exact h.processWake hu
  | processBlock proc obj now => exact h.processBlock ht
  | processUnblockAll obj => exact foldlM_invariant (fun s a t hs hst => hs.unblock hst) ht h
  | processKill pid exitCode now =>
    obtain ⟨⟨u, r⟩, hu, rfl⟩ := Option.map_eq_some_iff.mp ht
    exact h.processKill hu
  | processDestroy proc => exact h.processDestroy ht

theorem run {idle : ℕ} {steps : List ProcessStep}
    (hrun : steps.foldlM ProcessStep.run (processSystemInit idle) = some s) : NoWaiter s :=
  foldlM_invariant (fun _ _ _ hs hst => hs.step hst) hrun (.start idle)

theorem safe (h : NoWaiter s) (op : ProcessOp) : op.Safe s := by
  have hkill : ∀ pid, ProcessOp.KillSafe s pid := fun pid _ a _ => by
    cases hp : s.process a with
    | none => rw [waitingParent, hp, Option.bind_none]
    | some p => rw [waitingParent, hp, Option.bind_some, h a p hp]
  cases op with
  | processKill pid => exact hkill pid
  | processExit => exact fun p _ => hkill p.pid
  | _ => exact trivial

end NoWaiter

end GcAos.Sync
