import GcAos.Sched.RbColor

/-! The fair scheduler of `kernel/sched/fairness.c`: its run queues and what moves a task from one
to another. A task is known by the address of its node, a run queue by its own address, and 0 is
NULL. A section under a lock is one step; `none` is as for the trees. -/

namespace GcAos.Sched
open Lib

/-- The fields of `struct task_struct_ext` that are used here, without the node. -/
structure FairTask where
  vruntime : ℕ
  weight : ℤ
  nice : ℤ
  timeslice : ℤ
  timeSliceRemaining : BitVec 64
  rq : ℕ
  cpuAllowed : ℕ
  preferredCpu : ℕ
  migrationPenalty : ℤ
  lastMigration : BitVec 64
  migrated : Bool

/-- `struct fairness_rq`. The leftmost node is compared as the task that it belongs to. -/
structure FairnessRq where
  rbRoot : ℕ
  rbLeftmost : ℕ
  minVruntime : ℕ
  runnableLoad : BitVec 64
  nrRunning : BitVec 64

/-- The nodes, tasks and run queues, and `fairness_ctx`. -/
structure Fairness where
  child : Side → ℕ → ℕ
  parent : ℕ → ℕ
  red : ℕ → Bool
  task : ℕ → FairTask
  rq : ℕ → FairnessRq
  nrCpus : ℕ
  totalTasks : ℤ
  migrations : ℤ

/-- The run queues as `fairness_init` leaves them. -/
def fairnessInit (task : ℕ → FairTask) (nrCpus : ℕ) : Fairness where
  child _ _ := 0
  parent _ := 0
  red _ := false
  task := task
  rq _ := { rbRoot := 0, rbLeftmost := 0, minVruntime := 0, runnableLoad := 0, nrRunning := 0 }
  nrCpus := nrCpus
  totalTasks := 0
  migrations := 0

def freshTask (vruntime rq : ℕ) : FairTask where
  vruntime := vruntime
  weight := 1120
  nice := 0
  timeslice := 21
  timeSliceRemaining := 21
  rq := rq
  cpuAllowed := 0
  preferredCpu := 0
  migrationPenalty := 0
  lastMigration := 0
  migrated := false

def runqueue (cpu : ℕ) : ℕ := cpu + 1

theorem runqueue_ne_zero (cpu : ℕ) : runqueue cpu ≠ 0 := Nat.succ_ne_zero cpu

/-! Weights and time slices. -/

def niceToWeight : List ℤ :=
  [88761, 71755, 56483, 46273, 36291, 29154, 23254, 18705, 14952, 11916, 9548, 7620, 6100, 4904,
    3951, 3181,
    2567, 2087, 1699, 1385, 1120, 910, 740, 602, 492, 402, 327, 265, 217, 178, 147, 120, 98, 81, 66,
      54, 45, 37,
    31, 26]

def fairnessCalcWeight (nice : ℤ) : ℤ :=
  let nice := if nice < -20 then -20 else if 19 < nice then 19 else nice
  niceToWeight.getD (nice + 20).toNat 0

def fairnessMinTimeslice : ℤ := 1
def fairnessMaxTimeslice : ℤ := 100
def fairnessTargetLatency : ℤ := 20

def fairnessCalcTimeslice (task : FairTask) : ℤ :=
  let weight := if task.weight = 0 then 1024 else task.weight
  let timeslice := (fairnessTargetLatency * weight).tdiv 1024
  if timeslice < fairnessMinTimeslice then fairnessMinTimeslice
  else if fairnessMaxTimeslice < timeslice then fairnessMaxTimeslice
  else timeslice

/-- A task whose virtual runtime is 0 counts as not initialized. -/
def initFairness (q : FairnessRq) (task : FairTask) : FairTask :=
  if task.vruntime = 0 then
    let task := { task with vruntime := q.minVruntime, weight := fairnessCalcWeight task.nice }
    let task := { task with timeslice := fairnessCalcTimeslice task }
    { task with timeSliceRemaining := .ofInt 64 task.timeslice }
  else task

namespace Fairness

variable (s : Fairness)

def tree (rq : ℕ) : Rb := { child := s.child, parent := s.parent, red := s.red, root :=
    (s.rq rq).rbRoot }

def setRq (rq : ℕ) (q : FairnessRq) : Fairness := { s with rq := Function.update s.rq rq q }

def setTask (task : ℕ) (t : FairTask) : Fairness := { s with task := Function.update s.task task t }

def setTree (rq : ℕ) (t : Rb) : Fairness :=
  { s with child := t.child, parent := t.parent, red := t.red }.setRq rq
    { s.rq rq with rbRoot := t.root }

def vruntime (x : ℕ) : ℕ := (s.task x).vruntime

/-- The weight of a task as it is added to an `unsigned long`. -/
def weight (x : ℕ) : BitVec 64 := .ofInt 64 (s.task x).weight

end Fairness

section Fields

variable {s : Fairness} {task rq r : ℕ} {t : Rb} {q : FairnessRq}

@[simp] theorem Fairness.tree_setTree : (s.setTree rq t).tree rq = t := by
  simp [Fairness.tree, Fairness.setTree, Fairness.setRq]

@[simp] theorem Fairness.task_setTree : (s.setTree rq t).task = s.task := rfl

@[simp] theorem Fairness.vruntime_setTree : (s.setTree rq t).vruntime = s.vruntime := rfl

@[simp] theorem Fairness.weight_setTree : (s.setTree rq t).weight = s.weight := rfl

@[simp] theorem Fairness.rq_setTree_self : (s.setTree rq t).rq rq = { s.rq rq with rbRoot := t.root } :=
  Function.update_self ..

theorem Fairness.rq_setTree_of_ne (h : r ≠ rq) : (s.setTree rq t).rq r = s.rq r :=
    Function.update_of_ne h ..

end Fields

/-- `while (*link)`: below which node and on which side `vruntime` belongs. -/
def findLink (s : Fairness) (vruntime : ℕ) : ℕ → ℕ → ℕ → Side → Option (ℕ × Side)
  | 0, _, _, _ => none
  | n + 1, entry, parent, side =>
    if entry = 0 then some (parent, side)
    else
      let side := if vruntime < s.vruntime entry then .left else .right
      findLink s vruntime n (s.child side entry) entry side

/-- What `fairness_enqueue_task` does when the tree is `t`. -/
def finishEnqueue (s : Fairness) (task rq : ℕ) (t : Rb) : Fairness :=
  let s := s.setTree rq t
  let q := s.rq rq
  let leftmost :=
    if q.rbLeftmost = 0 ∨ s.vruntime task < s.vruntime q.rbLeftmost then task else q.rbLeftmost
  { s.setRq rq { q with
      rbLeftmost := leftmost
      nrRunning := q.nrRunning + 1
      runnableLoad := q.runnableLoad + s.weight task } with totalTasks := s.totalTasks + 1 }

/-- What `fairness_dequeue_task` does when the tree is `t`; `first` is the leftmost node of it. -/
def finishDequeue (s : Fairness) (task rq first : ℕ) (t : Rb) : Fairness :=
  let s := s.setTree rq t
  let q := s.rq rq
  let leftmost := if q.rbLeftmost = task then first else q.rbLeftmost
  { s.setRq rq { q with
      rbLeftmost := leftmost
      nrRunning := q.nrRunning - 1
      runnableLoad := q.runnableLoad - s.weight task } with totalTasks := s.totalTasks - 1 }

section Calls

variable (api : RbApi) (n : ℕ)

def fairnessEnqueueTask (s : Fairness) (task rq : ℕ) : Option Fairness :=
  if task = 0 ∨ rq = 0 then some s
  else do
    let s := s.setTask task (initFairness (s.rq rq) (s.task task))
    let (parent, side) ← findLink s (s.vruntime task) n (s.rq rq).rbRoot 0 .left
    let t ← rbInsertColor n (api.linkNode (s.tree rq) task parent side) task
    some (finishEnqueue s task rq t)

def fairnessDequeueTask (s : Fairness) (task rq : ℕ) : Option Fairness :=
  if task = 0 ∨ rq = 0 then some s
  else do
    let t ← rbErase api n (s.tree rq) task
    some (finishDequeue s task rq (api.first n t) t)

/-! Migration. The time is what `get_timestamp` returns. -/

/-- What is written to a task that has been moved to the queue of `cpu`. -/
def markMigrated (s : Fairness) (task cpu : ℕ) (now : BitVec 64) : Fairness :=
  { s.setTask task { s.task task with migrated := true, lastMigration := now, preferredCpu := cpu } with
    migrations := s.migrations + 1 }

def Penalized (s : Fairness) (task : ℕ) (now : BitVec 64) : Prop :=
  now - (s.task task).lastMigration < .ofInt 64 (s.task task).migrationPenalty

instance (s : Fairness) (task : ℕ) (now : BitVec 64) : Decidable (Penalized s task now) :=
  inferInstanceAs (Decidable (_ < _))

def einval : ℤ := 22
def ebusy : ℤ := 16

def fairnessMigrateTask (s : Fairness) (task destCpu : ℕ) (now : BitVec 64) : Option (Fairness × ℤ) :=
  if task = 0 ∨ s.nrCpus ≤ destCpu then some (s, -einval)
  else if Penalized s task now then some (s, -ebusy)
  else do
    let srcRq := (s.task task).rq
    let s ← fairnessDequeueTask api n s task srcRq
    let s ← fairnessEnqueueTask api n s task (runqueue destCpu)
    some (markMigrated s task destCpu now, 0)

def fairnessShouldMigrate (s : Fairness) (task destCpu : ℕ) (now : BitVec 64) : Bool :=
  if task = 0 ∨ s.nrCpus ≤ destCpu then false
  else if (s.task task).cpuAllowed ≠ 0 ∧ (s.task task).cpuAllowed.testBit destCpu = false then false
  else if Penalized s task now then false
  else if (s.rq (s.task task).rq).runnableLoad - (s.rq (runqueue destCpu)).runnableLoad < 512 then false
  else true

/-- A CPU and its load, where there is one; `-1` is `none`. -/
abbrev Found := Option ℕ × BitVec 64

/-- `fairness_find_busiest_cpu`, with the load that it stores. -/
def fairnessFindBusiestCpu (s : Fairness) (thisCpu : ℕ) : Found :=
  (List.range s.nrCpus).foldl (fun (found : Found) i =>
    if i = thisCpu then found
    else if found.2 < (s.rq (runqueue i)).runnableLoad then (some i, (s.rq (runqueue i)).runnableLoad)
    else found) (none, 0)

def fairnessFindIdlestCpu (s : Fairness) (thisCpu : ℕ) : Found :=
  (List.range s.nrCpus).foldl (fun (found : Found) i =>
    if i = thisCpu then found
    else if (s.rq (runqueue i)).runnableLoad < found.2 then (some i, (s.rq (runqueue i)).runnableLoad)
    else found) (none, BitVec.allOnes 64)

/-- The task that `fairness_balance_load` moves, if any, with the busiest and the idlest CPU. -/
def balanceChoice (s : Fairness) (cpu : ℕ) (now : BitVec 64) : Option (ℕ × ℕ × ℕ) :=
  if s.nrCpus ≤ cpu then none
  else do
    let (busiestCpu, busiestLoad) := fairnessFindBusiestCpu s cpu
    let busiestCpu ← busiestCpu
    let (idlestCpu, idlestLoad) := fairnessFindIdlestCpu s cpu
    let idlestCpu ← idlestCpu
    if busiestLoad - idlestLoad < 1024 then none
    else
      let task := (s.rq (runqueue busiestCpu)).rbLeftmost
      if task ≠ 0 ∧ fairnessShouldMigrate s task idlestCpu now then some (task, busiestCpu, idlestCpu)
      else none

/-- The clock is read again when the task has moved. -/
def fairnessBalanceLoad (s : Fairness) (cpu : ℕ) (now later : BitVec 64) : Option Fairness :=
  match balanceChoice s cpu now with
  | none => some s
  | some (task, busiestCpu, idlestCpu) => do
    let s ← fairnessDequeueTask api n s task (runqueue busiestCpu)
    let s ← fairnessEnqueueTask api n s task (runqueue idlestCpu)
    some (markMigrated s task idlestCpu later)

end Calls

end GcAos.Sched
