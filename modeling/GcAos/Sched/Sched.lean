import GcAos.Lib.Exec
import GcAos.Lib.Links

/-! The scheduler of `kernel/sched/sched.c`. Tasks are records at addresses, with 0 for the null
pointer; the run queue links them through their own `next` and `prev` fields. -/

namespace GcAos.Sched
open Lib

inductive TaskState
  | running | interruptible | uninterruptible | stopped | zombie | dead
  deriving DecidableEq

def maxTasks : ℕ := 256
def kernelStackSize : ℕ := 16 * 1024
def taskCommLen : ℕ := 16

def pfKthread : ℕ := 1
def pfExiting : ℕ := 2
def pfIdle : ℕ := 4
def pfThread : ℕ := 32
def cloneVm : ℕ := 256
def cloneThread : ℕ := 65536

/-- `struct task_struct`; its defaults are those of a zeroed record. -/
structure TaskStruct where
  state : TaskState := .running
  prio : ℤ := 0
  staticPrio : ℤ := 0
  nice : ℤ := 0
  pid : ℤ := 0
  tgid : ℤ := 0
  uid : ℕ := 0
  gid : ℕ := 0
  -- without the terminator
  comm : List UInt8 := []
  mm : ℕ := 0
  activeMm : ℕ := 0
  stack : ℕ := 0
  stackSize : ℕ := 0
  parent : ℕ := 0
  next : ℕ := 0
  prev : ℕ := 0
  exitCode : ℤ := 0
  pendingSignals : ℕ := 0
  flags : ℕ := 0

def initTask : ℕ := 1

/-- The address of an entry of `task_pool`. -/
def poolTask (i : ℕ) : ℕ := i + 2

/-- The run queue and the other static data of the scheduler. -/
structure Rq where
  current : ℕ
  idle : ℕ
  head : ℕ
  tail : ℕ
  nrRunning : ℕ
  tasks : ℕ → TaskStruct
  taskPoolIndex : ℕ
  nextPid : ℤ
  -- `users` of the address spaces
  mmUsers : ℕ → ℤ

namespace Rq

def modify (s : Rq) (t : ℕ) (f : TaskStruct → TaskStruct) : Rq :=
  { s with tasks := Function.update s.tasks t (f (s.tasks t)) }

/-- The `next` of `p`, or the head of the queue if `p` is null, becomes `n`. -/
def setNext (s : Rq) (p n : ℕ) : Rq :=
  if p ≠ 0 then s.modify p fun t => { t with next := n } else { s with head := n }

/-- The `prev` of `n`, or the tail of the queue if `n` is null, becomes `p`. -/
def setPrev (s : Rq) (n p : ℕ) : Rq :=
  if n ≠ 0 then s.modify n fun t => { t with prev := p } else { s with tail := p }

/-- The pool and the counters as the kernel starts with them. -/
def static : Rq where
  current := 0
  idle := 0
  head := 0
  tail := 0
  nrRunning := 0
  tasks := Function.update (fun _ => {}) initTask
    { comm := [115, 119, 97, 112, 112, 101, 114], flags := pfKthread ||| pfIdle }
  taskPoolIndex := 0
  nextPid := 1
  mmUsers _ := 0

end Rq

def schedInit (s : Rq) : Rq :=
  { s with current := initTask, idle := initTask, head := 0, tail := 0, nrRunning := 0 }

def allocTask (s : Rq) : ℕ × Rq :=
  if maxTasks ≤ s.taskPoolIndex then (0, s)
  else
    let task := poolTask s.taskPoolIndex
    (task, { s with tasks := Function.update s.tasks task {}, taskPoolIndex := s.taskPoolIndex + 1 })

def enqueueTask (s : Rq) (task : ℕ) : Rq :=
  let s := s.modify task fun t => { t with state := .running }
  let s :=
    if s.head = 0 then
      let s := { s with head := task, tail := task }
      s.modify task fun t => { t with next := 0, prev := 0 }
    else
      let s := s.modify task fun t => { t with prev := s.tail }
      let s := s.modify task fun t => { t with next := 0 }
      let s := s.modify s.tail fun t => { t with next := task }
      { s with tail := task }
  { s with nrRunning := (s.nrRunning + 1) % 2 ^ 32 }

def dequeueTask (s : Rq) (task : ℕ) : Rq :=
  let s := s.setNext (s.tasks task).prev (s.tasks task).next
  let s := s.setPrev (s.tasks task).next (s.tasks task).prev
  let s := s.modify task fun t => { t with next := 0, prev := 0 }
  if 0 < s.nrRunning then { s with nrRunning := s.nrRunning - 1 } else s

def pickNextTask (s : Rq) : ℕ := if s.head = 0 then s.idle else s.head

def contextSwitch (s : Rq) (prev next : ℕ) : Rq :=
  s.modify next fun t =>
    { t with activeMm := if t.mm ≠ 0 then t.mm else (s.tasks prev).activeMm }

def schedule (s : Rq) : Rq :=
  let prev := s.current
  let next := pickNextTask s
  if next = prev then s
  else
    let s :=
      if (s.tasks prev).state = .running ∧ prev ≠ s.idle then enqueueTask (dequeueTask s prev) prev
      else s
    contextSwitch { s with current := next } prev next

def wakeUpProcess (s : Rq) (task : ℕ) : ℤ × Rq :=
  if task = 0 then (0, s)
  else if (s.tasks task).state = .running then (0, s)
  else
    let s := s.modify task fun t => { t with state := .running }
    (1, enqueueTask s task)

def defaultComm : List UInt8 := [116, 97, 115, 107] ++ List.replicate (taskCommLen - 5) 116

/-- `stack` is what `alloc_stack` returns. -/
def createTask (s : Rq) (flags stack : ℕ) : ℕ × Rq :=
  let (task, s) := allocTask s
  if task = 0 then (0, s)
  else if stack = 0 then (0, s)
  else
    let s := s.modify task fun t => { t with
      state := .running
      prio := 0
      staticPrio := 0
      nice := 0
      pid := s.nextPid
      tgid := s.nextPid
      flags := flags
      stack := stack
      stackSize := kernelStackSize
      parent := s.current
      comm := defaultComm }
    let s := { s with nextPid := s.nextPid + 1 }
    (task, enqueueTask s task)

/-- `stack` is the caller's stack, `allocated` what `alloc_stack` returns when that is null. -/
def createThread (s : Rq) (stack cloneFlags allocated : ℕ) : ℤ × Rq :=
  let parent := s.current
  let (task, s) := allocTask s
  if task = 0 then (-1, s)
  else
    let p := s.tasks parent
    let s := s.modify task fun t => { t with
      state := .running
      prio := p.prio
      staticPrio := p.staticPrio
      nice := p.nice
      pid := s.nextPid
      tgid := if cloneFlags &&& cloneThread ≠ 0 then p.tgid else s.nextPid
      flags := pfThread
      parent := parent
      uid := p.uid
      gid := p.gid
      comm := p.comm.take (taskCommLen - 10)
      mm := p.mm
      activeMm := p.activeMm }
    let s := { s with nextPid := s.nextPid + 1 }
    let s :=
      if cloneFlags &&& cloneVm ≠ 0 ∧ p.mm ≠ 0 then
        { s with mmUsers := Function.update s.mmUsers p.mm (s.mmUsers p.mm + 1) }
      else s
    if stack ≠ 0 then
      let s := s.modify task fun t => { t with stack := stack, stackSize := 0 }
      ((s.tasks task).pid, enqueueTask s task)
    else
      let s := s.modify task fun t => { t with stack := allocated }
      if allocated = 0 then (-1, s)
      else
        let s := s.modify task fun t => { t with stackSize := kernelStackSize }
        ((s.tasks task).pid, enqueueTask s task)

def exitTask (s : Rq) (code : ℤ) : Rq :=
  let current := s.current
  let s := s.modify current fun t =>
    { t with exitCode := code, state := .zombie, flags := t.flags ||| pfExiting }
  schedule (dequeueTask s current)

/-- The address of the task, 0 if there is none. -/
def getTaskByPid (s : Rq) (pid : ℤ) : ℕ :=
  if (s.tasks initTask).pid = pid then initTask
  else
    let found := (List.range s.taskPoolIndex).find? fun i =>
      (s.tasks (poolTask i)).pid = pid ∧ (s.tasks (poolTask i)).state ≠ .dead
    match found with
    | some i => poolTask i
    | none => 0

def schedKillTask (s : Rq) (pid : ℤ) : ℤ × Rq :=
  let task := getTaskByPid s pid
  if task = 0 then (-3, s)
  else if (s.tasks task).pid = 0 ∨ (s.tasks task).flags &&& pfIdle ≠ 0 then (-1, s)
  else
    let s := s.modify task fun t =>
      { t with flags := t.flags ||| pfExiting, pendingSignals := t.pendingSignals ||| 2 ^ 9 }
    if (s.tasks task).state = .interruptible ∨ (s.tasks task).state = .uninterruptible then
      let s := s.modify task fun t => { t with state := .running }
      (0, enqueueTask s task)
    else (0, s)

/-- The current task marks itself as sleeping and calls `schedule`. -/
def sleepOn (s : Rq) (state : TaskState) : Rq :=
  schedule (s.modify s.current fun t => { t with state := state })

end GcAos.Sched
