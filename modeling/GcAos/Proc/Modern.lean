import GcAos.Lib.Exec
import Mathlib.Logic.Function.Basic
import Mathlib.Tactic

/-! The processes of `core/process_modern.c`. The `run_list` node of a process is for the ready
queue and for the zombie queue. `none` stands for an access through a null pointer or to freed
memory. -/

namespace GcAos.Proc.Modern
open Lib

def maxProcesses : ℕ := 256

inductive ProcessState
  | free | new | ready | running | blocked | sleeping | zombie | dead
  deriving DecidableEq

/-- `sibling` is the process in whose `children` the node is. The node of a process without a parent is
never initialised and stays zero. -/
structure Process where
  pid : ℕ := 0
  tid : ℕ := 0
  state : ProcessState := .free
  priority : ℤ := 0
  basePriority : ℤ := 0
  entryPoint : ℕ := 0
  timeSlice : UInt64 := 0
  execStart : UInt64 := 0
  cpu : ℤ := 0
  sleepUntil : UInt64 := 0
  parent : Option ℕ := none
  children : List ℕ := []
  sibling : Option ℕ := none
  waitObj : ℕ := 0
  createdAt : UInt64 := 0
  wakeCount : UInt64 := 0
  switchCount : UInt64 := 0
  exitCode : ℤ := 0
  waitingParent : Option ℕ := none

/-- `g_process_manager`, with the memory of the processes by their addresses. -/
structure ProcessManager where
  process : ℕ → Option Process := fun _ => none
  processes : ℕ → Option ℕ := fun _ => none
  nextPid : ℕ := 1
  processCount : ℤ := 0
  allProcesses : List ℕ := []
  readyQueue : List ℕ := []
  zombieQueue : List ℕ := []
  current : ℕ
  idleProcess : ℕ

/-- `process_system_init`, when there is memory for the idle process. -/
def processSystemInit (idle : ℕ) : ProcessManager where
  process := Function.update (fun _ => none) idle
    (some { state := .ready, priority := 139, basePriority := 139 })
  processes := Function.update (fun _ => none) 0 (some idle)
  allProcesses := [idle]
  current := idle
  idleProcess := idle

namespace ProcessManager

variable (s : ProcessManager)

def modify (a : ℕ) (f : Process → Process) : ProcessManager :=
  { s with process := Function.update s.process a ((s.process a).map f) }

/-- `list_empty` of the `run_list` node says whether it is in neither queue. -/
def Queued (a : ℕ) : Prop := a ∈ s.readyQueue ∨ a ∈ s.zombieQueue

instance (a : ℕ) : Decidable (s.Queued a) := inferInstanceAs (Decidable (_ ∨ _))

/-- `if (!list_empty(&proc->run_list)) list_del(&proc->run_list);` -/
def unqueue (a : ℕ) : ProcessManager :=
  if s.Queued a then
    { s with
      readyQueue := s.readyQueue.erase a
      zombieQueue := s.zombieQueue.erase a }
  else s

def addReady (a : ℕ) : ProcessManager := { s with readyQueue := s.readyQueue ++ [a] }

/-- The identifier that `alloc_pid` looks at next. -/
def pidAfter (pid : ℕ) : ℕ :=
  let pid := (pid + 1) % maxProcesses
  if pid < 1 then 1 else pid

/-- The loop of `alloc_pid`, which is back at its start after 255 turns. -/
def findPid (processes : ℕ → Option ℕ) : ℕ → ℕ → Option ℕ
  | 0, _ => none
  | n + 1, pid => if processes pid = none then some pid else findPid processes n (pidAfter pid)

def allocPid : Option ℕ := findPid s.processes (maxProcesses - 1) s.nextPid

def freeProcess (a : ℕ) : ProcessManager := { s with process := Function.update s.process a none }

def linkParent (a : ℕ) : Option ProcessManager :=
  if s.current = s.idleProcess then some s
  else do
    let _ ← s.process s.current
    let s := s.modify a fun p => { p with parent := some s.current, sibling := some s.current }
    some (s.modify s.current fun p => { p with children := a :: p.children })

def initProcess (pid entry : ℕ) (priority : ℤ) (now : UInt64) (p : Process) : Process :=
  { p with
    pid := pid
    tid := pid
    state := .new
    priority := priority
    basePriority := priority
    entryPoint := entry
    timeSlice := 10 * 1000000
    createdAt := now
    cpu := -1 }

/-- `mem` is what `kmalloc` returns, and `stack` says whether there is memory for the stack. -/
def processCreate (name : Option String) (entry : ℕ) (priority : ℤ) (mem : Option ℕ) (stack : Bool)
    (now : UInt64) : Option (ProcessManager × Option ℕ) :=
  if name = none ∨ entry = 0 then some (s, none)
  else
    let priority := if priority < 0 then 0 else priority
    let priority := if 139 < priority then 139 else priority
    match mem with
    | none => some (s, none)
    | some a =>
      let s := { s with process := Function.update s.process a (some {}) }
      match s.allocPid with
      | none => some (s.freeProcess a, none)
      | some pid =>
        let s := { s with nextPid := pidAfter pid }
        if stack = false then some (s.freeProcess a, none)
        else do
          let s ← (s.modify a (initProcess pid entry priority now)).linkParent a
          some ({ s with
            processes := Function.update s.processes pid (some a)
            processCount := s.processCount + 1
            allProcesses := a :: s.allProcesses }, some a)

def processStart (proc : Option ℕ) : Option (ProcessManager × ℤ) :=
  match proc with
  | none => some (s, -1)
  | some a => do
    let p ← s.process a
    if p.state ≠ .new then some (s, -2)
    else some ((s.modify a fun p => { p with state := .ready }).addReady a, 0)

def switchContext (next : ℕ) (now : UInt64) : ProcessManager :=
  if next = s.current then s
  else
    let from_ := s.current
    let s := { s with current := next }
    let s := s.modify from_ fun p => { p with cpu := -1, switchCount := p.switchCount + 1 }
    s.modify next fun p => { p with cpu := 0, execStart := now }

def requeueCurrent (current : Process) : ProcessManager :=
  if current.state = .running ∧ s.current ≠ s.idleProcess then
    ((s.modify s.current fun p => { p with state := .ready }).unqueue s.current).addReady s.current
  else s

def processSchedule (now : UInt64) : Option ProcessManager := do
  let current ← s.process s.current
  let next := s.readyQueue.head?.getD s.idleProcess
  let s := s.requeueCurrent current
  let _ ← s.process next
  let s := (s.modify next fun p => { p with state := .running }).unqueue next
  some (s.switchContext next now)

/-- `if (proc == process_current()) process_schedule();` -/
def reschedule (a : ℕ) (now : UInt64) : Option ProcessManager :=
  if a = s.current then s.processSchedule now else some s

def processGet (pid : ℤ) : Option ℕ :=
  if pid < 0 ∨ maxProcesses ≤ pid then none else s.processes pid.toNat

/-- A waiting parent would be woken while the lock is held, and `process_wake` takes the lock. -/
def processKill (pid exitCode : ℤ) (now : UInt64) : Option (ProcessManager × ℤ) :=
  match s.processGet pid with
  | none => some (s, -1)
  | some a =>
    if pid = 0 then some (s, -2)
    else do
      let p ← s.process a
      let s := s.modify a fun p => { p with exitCode := exitCode, state := .zombie }
      let s := s.unqueue a
      if p.waitingParent ≠ none then none
      else
        let s := p.children.foldl (fun s child => s.modify child fun p => { p with parent := none }) s
        let s := { s with zombieQueue := a :: s.zombieQueue }
        let s ← s.reschedule a now
        some (s, 0)

def processDestroy (proc : Option ℕ) : Option ProcessManager :=
  match proc with
  | none => some s
  | some a => do
    let p ← s.process a
    let parent ← p.sibling
    let _ ← s.process parent
    let s := { s with allProcesses := s.allProcesses.erase a }
    let s := s.modify parent fun q => { q with children := q.children.erase a }
    let s := s.unqueue a
    let s := { s with
      processes := Function.update s.processes p.pid none
      processCount := s.processCount - 1 }
    some (s.freeProcess a)

def processSleep (proc : Option ℕ) (nanoseconds now : UInt64) : Option ProcessManager := do
  let a := proc.getD s.current
  let _ ← s.process a
  let s := s.modify a fun p => { p with state := .sleeping, sleepUntil := now + nanoseconds }
  (s.unqueue a).reschedule a now

def processWake (proc : Option ℕ) : Option (ProcessManager × ℤ) :=
  match proc with
  | none => some (s, -1)
  | some a => do
    let p ← s.process a
    if p.state = .ready ∨ p.state = .running then some (s, 1)
    else
      let s := s.modify a fun p =>
        { p with state := .ready, sleepUntil := 0, wakeCount := p.wakeCount + 1 }
      some (if s.Queued a then s else s.addReady a, 0)

def processBlock (proc : Option ℕ) (obj : ℕ) (now : UInt64) : Option ProcessManager := do
  let a := proc.getD s.current
  let _ ← s.process a
  let s := s.modify a fun p => { p with state := .blocked, waitObj := obj }
  (s.unqueue a).reschedule a now

/-- A turn of the loop of `process_unblock_all`. -/
def unblock (obj : ℕ) (s : ProcessManager) (a : ℕ) : Option ProcessManager := do
  let p ← s.process a
  if p.state = .blocked ∧ p.waitObj = obj then
    let s := s.modify a fun p => { p with waitObj := 0, state := .ready }
    some (if s.Queued a then s else s.addReady a)
  else some s

def processUnblockAll (obj : ℕ) : Option ProcessManager := s.allProcesses.foldlM (unblock obj) s

end ProcessManager

inductive ProcessStep
  | processCreate (name : Option String) (entry : ℕ) (priority : ℤ) (mem : Option ℕ) (stack : Bool)
      (now : UInt64)
  | processStart (proc : Option ℕ)
  | processSchedule (now : UInt64)
  | processSleep (proc : Option ℕ) (nanoseconds now : UInt64)
  | processWake (proc : Option ℕ)
  | processBlock (proc : Option ℕ) (obj : ℕ) (now : UInt64)
  | processUnblockAll (obj : ℕ)
  | processKill (pid exitCode : ℤ) (now : UInt64)
  | processDestroy (proc : Option ℕ)

namespace ProcessStep

variable (s : ProcessManager)

def run : ProcessStep → Option ProcessManager
  | processCreate name entry priority mem stack now =>
    (s.processCreate name entry priority mem stack now).map Prod.fst
  | processStart proc => (s.processStart proc).map Prod.fst
  | processSchedule now => s.processSchedule now
  | processSleep proc nanoseconds now => s.processSleep proc nanoseconds now
  | processWake proc => (s.processWake proc).map Prod.fst
  | processBlock proc obj now => s.processBlock proc obj now
  | processUnblockAll obj => s.processUnblockAll obj
  | processKill pid exitCode now => (s.processKill pid exitCode now).map Prod.fst
  | processDestroy proc => s.processDestroy proc

/-- The process that a call is about is a live one, and `kmalloc` returns memory that is not in use. -/
def Allowed : ProcessStep → Prop
  | processCreate _ _ _ mem _ _ => ∀ a ∈ mem, s.process a = none
  | processStart proc => ∀ a ∈ proc, s.process a ≠ none
  | processSleep proc .. => ∀ a ∈ proc, s.process a ≠ none
  | processWake proc => ∀ a ∈ proc, s.process a ≠ none
  | processBlock proc .. => ∀ a ∈ proc, s.process a ≠ none
  | processDestroy proc => ∀ a ∈ proc, s.process a ≠ none
  | _ => True

/-- A zombie and a process that sleeps or is blocked as the idle process are not woken. A process
that is destroyed was created by another than the idle process, has no children left and is not the
current one. -/
def Safe : ProcessStep → Prop
  | processWake proc => ∀ a ∈ proc, ∀ p ∈ s.process a, p.state ≠ .zombie ∧
      (a = s.idleProcess → p.state ≠ .sleeping ∧ p.state ≠ .blocked)
  | processUnblockAll obj => ∀ p ∈ s.process s.idleProcess, ¬(p.state = .blocked ∧ p.waitObj = obj)
  | processDestroy proc => ∀ a ∈ proc, ∀ p ∈ s.process a,
      p.sibling ≠ none ∧ p.children = [] ∧ a ≠ s.current
  | _ => True

instance : (c : ProcessStep) → Decidable (c.Allowed s)
  | processCreate _ _ _ mem _ _ => inferInstanceAs (Decidable (∀ a ∈ mem, s.process a = none))
  | processStart proc | processSleep proc .. | processWake proc | processBlock proc ..
  | processDestroy proc => inferInstanceAs (Decidable (∀ a ∈ proc, s.process a ≠ none))
  | processSchedule _ | processUnblockAll _ | processKill .. => isTrue trivial

instance : (c : ProcessStep) → Decidable (c.Safe s)
  | processWake proc => inferInstanceAs (Decidable (∀ a ∈ proc, ∀ p ∈ s.process a, _ ∧ (_ → _)))
  | processUnblockAll _ => inferInstanceAs (Decidable (∀ p ∈ s.process s.idleProcess, ¬_))
  | processDestroy proc => inferInstanceAs (Decidable (∀ a ∈ proc, ∀ p ∈ s.process a, _))
  | processCreate .. | processStart _ | processSchedule _ | processSleep .. | processBlock ..
  | processKill .. => isTrue trivial

end ProcessStep

end GcAos.Proc.Modern
