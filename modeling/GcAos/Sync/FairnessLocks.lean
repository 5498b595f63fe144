import GcAos.Lib.Locks
import GcAos.Sched.Fairness

/-! The locks of `kernel/sched/fairness.c`. Each run queue has one, known by the address of the
queue. -/

namespace GcAos.Sync
open Lib Sched LockAct

section Calls

variable (s : Fairness)

def fairnessEnqueueTaskLocks (task rq : ℕ) : List (LockAct ℕ) :=
    if task = 0 ∨ rq = 0 then [] else under rq []

def fairnessDequeueTaskLocks (task rq : ℕ) : List (LockAct ℕ) :=
    if task = 0 ∨ rq = 0 then [] else under rq []

def runqueueLocks (rq : ℕ) : List (LockAct ℕ) := if rq = 0 then [] else under rq []

/-- The time slice, which is unsigned, ends with this tick. -/
def SliceExpires (task : ℕ) : Prop := (s.task task).timeSliceRemaining - 1 = 0

instance (task : ℕ) : Decidable (SliceExpires s task) := inferInstanceAs (Decidable (_ = _))

/-- The task is requeued inside the section. -/
def fairnessTaskTickLocks (task rq : ℕ) : List (LockAct ℕ) :=
  if task = 0 ∨ rq = 0 then []
  else under rq <|
    if SliceExpires s task then fairnessDequeueTaskLocks task rq ++ fairnessEnqueueTaskLocks task rq else []

/-- The busiest and the idlest CPU, when their loads are far enough apart. A negative `cpu` passes
the check, and the searches leave out none then. -/
def balanceCpus (cpu : ℤ) : Option (ℕ × ℕ) :=
  if s.nrCpus ≤ cpu then none
  else do
    let thisCpu := if cpu < 0 then s.nrCpus else cpu.toNat
    let (busiestCpu, busiestLoad) := fairnessFindBusiestCpu s thisCpu
    let busiestCpu ← busiestCpu
    let (idlestCpu, idlestLoad) := fairnessFindIdlestCpu s thisCpu
    let idlestCpu ← idlestCpu
    if busiestLoad - idlestLoad < 1024 then none else some (busiestCpu, idlestCpu)

/-- The first task of the busiest CPU may go to the idlest one. -/
def Moves (busiestCpu idlestCpu : ℕ) (now : BitVec 64) : Prop :=
  let task := (s.rq (runqueue busiestCpu)).rbLeftmost
  task ≠ 0 ∧ fairnessShouldMigrate s task idlestCpu now

instance (busiestCpu idlestCpu : ℕ) (now : BitVec 64) : Decidable (Moves s busiestCpu idlestCpu now) :=
  inferInstanceAs (Decidable (_ ∧ _))

/-- The task is taken off its queue inside the section, and put on the other one after it. -/
def fairnessBalanceLoadLocks (cpu : ℤ) (now : BitVec 64) : List (LockAct ℕ) :=
  match balanceCpus s cpu with
  | none => []
  | some (busiestCpu, idlestCpu) =>
    let task := (s.rq (runqueue busiestCpu)).rbLeftmost
    if Moves s busiestCpu idlestCpu now then
      under (runqueue busiestCpu) (fairnessDequeueTaskLocks task (runqueue busiestCpu)) ++
        fairnessEnqueueTaskLocks task (runqueue idlestCpu)
    else under (runqueue busiestCpu) []

/-- There is no queue of a negative `dest_cpu`, which passes the check. -/
def fairnessMigrateTaskLocks (task : ℕ) (destCpu : ℤ) (now : BitVec 64) : List (LockAct ℕ) :=
  if task = 0 ∨ s.nrCpus ≤ destCpu ∨ Penalized s task now then []
  else fairnessDequeueTaskLocks task (s.task task).rq ++
    if destCpu < 0 then [] else fairnessEnqueueTaskLocks task (runqueue destCpu.toNat)

end Calls

/-- The calls, with the arguments that their locks depend on. -/
inductive FairnessOp
  | fairnessEnqueueTask (task rq : ℕ)
  | fairnessDequeueTask (task rq : ℕ)
  | fairnessPickNextTask (rq : ℕ)
  | fairnessTaskTick (task rq : ℕ)
  | fairnessAgeTasks (rq : ℕ)
  | fairnessBoostStarvingTasks (rq : ℕ)
  | fairnessCheckStarvation (rq : ℕ)
  | fairnessBalanceLoad (cpu : ℤ) (now : BitVec 64)
  | fairnessMigrateTask (task : ℕ) (destCpu : ℤ) (now : BitVec 64)
  /-- The calls that take no lock. -/
  | fairnessCalcVruntime | fairnessCalcTimeslice | fairnessCalcWeight | fairnessUpdateVruntime
  | fairnessCheckPreempt | fairnessShouldMigrate | fairnessFindBusiestCpu | fairnessFindIdlestCpu
  | fairnessInit | fairnessShutdown | fairnessGetStats | fairnessValidate | fairnessSetLevel | fairnessGetLevel
  | fairnessSetAgingInterval | fairnessSetStarvationThreshold

namespace FairnessOp

def locks (s : Fairness) : FairnessOp → List (LockAct ℕ)
  | fairnessEnqueueTask task rq => fairnessEnqueueTaskLocks task rq
  | fairnessDequeueTask task rq => fairnessDequeueTaskLocks task rq
  | fairnessPickNextTask rq => runqueueLocks rq
  | fairnessTaskTick task rq => fairnessTaskTickLocks s task rq
  | fairnessAgeTasks rq => runqueueLocks rq
  | fairnessBoostStarvingTasks rq => runqueueLocks rq
  | fairnessCheckStarvation rq => runqueueLocks rq
  | fairnessBalanceLoad cpu now => fairnessBalanceLoadLocks s cpu now
  | fairnessMigrateTask task destCpu now => fairnessMigrateTaskLocks s task destCpu now
  | _ => []

/-- A tick does not end a time slice, and balancing moves no task. -/
def Safe (s : Fairness) : FairnessOp → Prop
  | fairnessTaskTick task rq => task ≠ 0 → rq ≠ 0 → ¬SliceExpires s task
  | fairnessBalanceLoad cpu now => ∀ busiestCpu idlestCpu,
      balanceCpus s cpu = some (busiestCpu, idlestCpu) →
      ¬Moves s busiestCpu idlestCpu now
  | _ => True

end FairnessOp

variable {s : Fairness} {task rq : ℕ} {cpu : ℤ} {now : BitVec 64}

theorem deadlocks_dequeue {held : List ℕ} (htask : task ≠ 0) (hrq : rq ≠ 0) (hheld : rq ∈ held) :
    Deadlocks held (fairnessDequeueTaskLocks task rq) := by
  rw [fairnessDequeueTaskLocks, if_neg (not_or.mpr ⟨htask, hrq⟩)]
  exact deadlocks_under hheld []

theorem tick_deadlocks_iff (s : Fairness) (task rq : ℕ) :
    ¬Deadlocks [] (fairnessTaskTickLocks s task rq) ↔ (task ≠ 0 → rq ≠ 0 → ¬SliceExpires s task) := by
  unfold fairnessTaskTickLocks
  split
  next hnull =>
    refine iff_of_true returns_nil.not_deadlocks fun htask hrq => ?_
    exact absurd hnull (not_or.mpr ⟨htask, hrq⟩)
  next hnull =>
    obtain ⟨htask, hrq⟩ := not_or.mp hnull
    split
    next hexpires =>
      refine iff_of_false (not_not.mpr ?_) fun hsafe => hsafe htask hrq hexpires
      exact Deadlocks.under ((deadlocks_dequeue htask hrq List.mem_cons_self).append _)
    next hexpires => exact iff_of_true (returns_alone rq).not_deadlocks fun _ _ => hexpires

theorem balance_deadlocks_iff (s : Fairness) (cpu : ℤ) (now : BitVec 64) :
    ¬Deadlocks [] (fairnessBalanceLoadLocks s cpu now) ↔
      FairnessOp.Safe s (.fairnessBalanceLoad cpu now) := by
  unfold fairnessBalanceLoadLocks
  cases hcpus : balanceCpus s cpu with
  | none =>
    refine iff_of_true returns_nil.not_deadlocks fun b i hsome => ?_
    exact absurd (hcpus.symm.trans hsome).symm (Option.some_ne_none _)
  | some cpus =>
    obtain ⟨busiestCpu, idlestCpu⟩ := cpus
    dsimp only
    split
    next hmoves =>
      refine iff_of_false (not_not.mpr ?_) fun hsafe => hsafe _ _ hcpus hmoves
      refine Deadlocks.append (Deadlocks.under ?_) _
      exact deadlocks_dequeue hmoves.1 (runqueue_ne_zero busiestCpu) List.mem_cons_self
    next hmoves =>
      refine iff_of_true (returns_alone _).not_deadlocks fun b i hsome => ?_
      obtain ⟨rfl, rfl⟩ := Prod.mk.inj (Option.some.inj (hcpus.symm.trans hsome))
      exact hmoves

theorem balanceChoice_eq (s : Fairness) (cpu : ℕ) (now : BitVec 64) :
    balanceChoice s cpu now = (balanceCpus s cpu).bind fun cpus =>
      if Moves s cpus.1 cpus.2 now then some ((s.rq (runqueue cpus.1)).rbLeftmost, cpus) else none := by
  unfold balanceChoice balanceCpus
  by_cases hcpu : s.nrCpus ≤ cpu
  · rw [if_pos hcpu, if_pos (Int.ofNat_le.mpr hcpu)]
    rfl
  · rw [if_neg hcpu, if_neg fun hle => hcpu (Int.ofNat_le.mp hle),
      if_neg (Int.not_lt.mpr (Int.natCast_nonneg cpu)),
      Int.toNat_natCast]
    dsimp only
    obtain ⟨busiestCpu, busiestLoad⟩ := fairnessFindBusiestCpu s cpu
    obtain ⟨idlestCpu, idlestLoad⟩ := fairnessFindIdlestCpu s cpu
    cases busiestCpu with
    | none => rfl
    | some busiestCpu =>
      cases idlestCpu with
      | none => rfl
      | some idlestCpu =>
        dsimp only [Option.bind_eq_bind, Option.bind_some]
        split
        · rfl
        · rfl

theorem balanceChoice_eq_none_iff {cpu : ℕ} :
    balanceChoice s cpu now = none ↔ FairnessOp.Safe s (.fairnessBalanceLoad cpu now) := by
  rw [balanceChoice_eq, Option.bind_eq_none_iff]
  refine ⟨fun hnone b i hcpus hmoves => ?_, fun hsafe cpus hcpus => if_neg (hsafe cpus.1 cpus.2 hcpus)⟩
  have hite := hnone (b, i) hcpus
  rw [if_pos hmoves] at hite
  exact Option.some_ne_none _ hite

theorem returns_migrate (s : Fairness) (task : ℕ) (destCpu : ℤ) (now : BitVec 64) :
    Returns [] (fairnessMigrateTaskLocks s task destCpu now) := by
  unfold fairnessMigrateTaskLocks
  split
  · exact returns_nil
  · refine (returns_checked _ _).append ?_
    split
    · exact returns_nil
    · exact returns_checked _ _

theorem fairness_deadlocks_iff (s : Fairness) (op : FairnessOp) : ¬Deadlocks [] (op.locks s) ↔
    op.Safe s := by
  have htrue : ∀ {acts : List (LockAct ℕ)}, Returns [] acts → (¬Deadlocks [] acts ↔ True) :=
      fun hacts =>
    iff_of_true hacts.not_deadlocks trivial
  cases op with
  | fairnessTaskTick task rq => exact tick_deadlocks_iff s task rq
  | fairnessBalanceLoad cpu now => exact balance_deadlocks_iff s cpu now
  | fairnessEnqueueTask task rq => exact htrue (returns_checked _ _)
  | fairnessDequeueTask task rq => exact htrue (returns_checked _ _)
  | fairnessPickNextTask rq => exact htrue (returns_checked _ _)
  | fairnessAgeTasks rq => exact htrue (returns_checked _ _)
  | fairnessBoostStarvingTasks rq => exact htrue (returns_checked _ _)
  | fairnessCheckStarvation rq => exact htrue (returns_checked _ _)
  | fairnessMigrateTask task destCpu now => exact htrue (returns_migrate _ _ _ _)
  | _ => exact htrue returns_nil

end GcAos.Sync
