import GcAos.Lib.Exec
import GcAos.Lib.ListHead
import GcAos.Lib.WordMap
import Mathlib.Algebra.BigOperators.Group.Finset.Basic

/-! The priority scheduler of `kernel/sched/scheduler_preemptive.c`. Processes are records at addresses,
with 0 for the null pointer; the locks make each call one step. -/

namespace GcAos.Preempt
open Lib

def schedPrioLevels : ℕ := 140
def schedPrioNormal : ℤ := 100
def schedPrioIdle : ℤ := 139
def schedTimesliceMin : ℕ := 1
def schedTimesliceDefault : ℕ := 10
def schedTimesliceMax : ℕ := 100
def schedTickNs : ℕ := 10000000

inductive ProcessState
  | free | new | ready | running | blocked | sleeping | zombie | dead
  deriving DecidableEq

inductive Policy
  | fifo | rr | normal | batch | idle

abbrev Ptr : Type := Fin (2 ^ 64)

scoped instance neZero_word : NeZero (2 ^ 64) := ⟨by decide⟩

/-- The fields of `process_t` that the scheduler uses. -/
structure Process where
  state : ProcessState := .new
  priority : ℤ := 0
  basePriority : ℤ := 0
  timeSlice : ℕ := 0
  vruntime : ℕ := 0
  execStart : ℕ := 0
  totalRuntime : ℕ := 0

inductive ArrayId
  | array1 | array2
  deriving DecidableEq

/-- The `list_head`s: the queues of the two arrays and the `run_list` of every process. -/
inductive Node
  | null
  | queue (a : ArrayId) (prio : ℕ)
  | runList (proc : Ptr)
  deriving DecidableEq

structure PrioArray where
  bitmap : WordMap
  count : ℤ

structure RunQueue where
  current : Ptr
  idle : Ptr
  active : ArrayId
  expired : ArrayId
  arrays : ArrayId → PrioArray
  lists : ListHeads Node
  procs : Ptr → Process
  nrSwitches : ℕ
  nrRunning : ℕ
  nrBlocked : ℕ
  tickCount : ℕ
  needResched : Bool

namespace RunQueue

def modify (s : RunQueue) (p : Ptr) (f : Process → Process) : RunQueue :=
  { s with procs := Function.update s.procs p (f (s.procs p)) }

def modifyArray (s : RunQueue) (a : ArrayId) (f : PrioArray → PrioArray) : RunQueue :=
  { s with arrays := Function.update s.arrays a (f (s.arrays a)) }

def Queued (s : RunQueue) (p : Ptr) : Prop := ¬s.lists.ListEmpty (.runList p)

instance (s : RunQueue) (p : Ptr) : Decidable (s.Queued p) := inferInstanceAs (Decidable (¬_))

end RunQueue

/-- `scheduler_init`, with the idle process that is set later, and processes as they are made. -/
def schedulerInit (idle : Ptr) (procs : Ptr → Process) : RunQueue where
  current := 0
  idle
  active := .array1
  expired := .array2
  arrays _ := ⟨fun _ => 0, 0⟩
  lists := ⟨id, id⟩
  procs
  nrSwitches := 0
  nrRunning := 0
  nrBlocked := 0
  tickCount := 0
  needResched := false

def queueIndex (priority : ℤ) : ℕ :=
  let prio : ℤ := if schedPrioLevels ≤ priority then schedPrioLevels - 1 else priority
  if prio < 0 then 0 else prio.toNat

def prioArrayAdd (s : RunQueue) (a : ArrayId) (proc : Ptr) : RunQueue :=
  let prio := queueIndex (s.procs proc).priority
  let s := { s with lists := s.lists.listAddTail (.runList proc) (.queue a prio) }
  s.modifyArray a fun array => ⟨array.bitmap.setBit prio, array.count + 1⟩

def prioArrayRemove (s : RunQueue) (a : ArrayId) (proc : Ptr) : RunQueue :=
  let prio := queueIndex (s.procs proc).priority
  let s := { s with lists := (s.lists.listDel .null (.runList proc)).initListHead (.runList proc) }
  s.modifyArray a fun array =>
    ⟨if s.lists.ListEmpty (.queue a prio) then array.bitmap.clearBit prio else array.bitmap,
      array.count - 1⟩

/-- The null pointer if no bit is set, and `none` if the first entry of the queue is not a process. -/
def prioArrayPickNext (s : RunQueue) (a : ArrayId) : Option (Ptr × RunQueue) :=
  match (s.arrays a).bitmap.findFirst schedPrioLevels with
  | none => some (0, s)
  | some prio =>
    match s.lists.next (.queue a prio) with
    | .runList proc => some (proc, prioArrayRemove s a proc)
    | _ => none

def schedulerGetTimeslice (priority : ℤ) : ℕ :=
  if priority < schedPrioNormal then schedTimesliceMax
  else if schedPrioIdle ≤ priority then schedTimesliceMin
  else schedTimesliceDefault + (20 - (priority - 120)).toNat

def timesliceNs (priority : ℤ) : ℕ := schedulerGetTimeslice priority * 1000000

def higherWaiting (s : RunQueue) (priority : ℤ) : Bool :=
  match (s.arrays s.active).bitmap.findFirst schedPrioLevels with
  | none => false
  | some prio => prio < priority

def checkPreempt (s : RunQueue) (proc : Ptr) : RunQueue :=
  if s.current ≠ 0 ∧ (s.procs proc).priority < (s.procs s.current).priority then
    { s with needResched := true }
  else s

def schedulerAddProcess (s : RunQueue) (proc : Ptr) : ℤ × RunQueue :=
  if proc = 0 then (-1, s)
  else if (s.procs proc).state ≠ .ready ∧ (s.procs proc).state ≠ .new then (-2, s)
  else
    let s := s.modify proc fun p => { p with state := .ready }
    let s := prioArrayAdd s s.active proc
    let s := { s with nrRunning := (s.nrRunning + 1) % 2 ^ 64 }
    (0, checkPreempt s proc)

def schedulerRemoveProcess (s : RunQueue) (proc : Ptr) : ℤ × RunQueue :=
  if proc = 0 then (-1, s)
  else if s.Queued proc then
    let s := prioArrayRemove s s.active proc
    (0, { s with nrRunning := if 0 < s.nrRunning then s.nrRunning - 1 else s.nrRunning })
  else (0, s)

/-- The first part of `scheduler_reschedule`: the next process, from the expired array if the active
one has none. -/
def pickNext (s : RunQueue) : Option (Ptr × RunQueue) := do
  let (next, s) ← prioArrayPickNext s s.active
  if next = 0 ∧ 0 < (s.arrays s.expired).count then
    let s := { s with active := s.expired, expired := s.active }
    prioArrayPickNext s s.active
  else some (next, s)

def putBack (s : RunQueue) (prev : Ptr) : RunQueue :=
  if prev ≠ 0 ∧ (s.procs prev).state = .running then
    if (s.procs prev).timeSlice ≤ 0 then
      let s := s.modify prev fun p => { p with state := .ready, timeSlice := timesliceNs p.priority }
      prioArrayAdd s s.expired prev
    else
      let s := s.modify prev fun p => { p with state := .ready }
      prioArrayAdd s s.active prev
  else s

/-- The process `next` gets the processor. -/
def switchTo (s : RunQueue) (next : Ptr) (now : ℕ) : RunQueue :=
  let s := s.modify next fun p => { p with state := .running, execStart := now }
  { s with current := next, nrSwitches := (s.nrSwitches + 1) % 2 ^ 64, needResched := false }

/-- `none` if an entry is taken from an empty queue, or the null pointer is written through. -/
def schedulerReschedule (s : RunQueue) (now : ℕ) : Option RunQueue := do
  let prev := s.current
  let (next, s) ← pickNext s
  let next := if next = 0 then s.idle else next
  if next = prev then some { s with needResched := false }
  else
    let s := putBack s prev
    if next = 0 then none else some (switchTo s next now)

def updateVruntime (p : Process) (delta : ℕ) : Process :=
  let weight := max (schedPrioLevels - p.priority) 1
  { p with vruntime := (p.vruntime + delta * 1024 / weight.toNat) % 2 ^ 64 }

def boostStarved (p : Process) : Process :=
  if p.priority < schedPrioNormal ∧ 1000000000 < p.totalRuntime ∧ 10 < p.priority then
    { p with priority := max (p.priority - 5) 10 }
  else p

def charge (p : Process) : Process :=
  updateVruntime
    { p with
      timeSlice := (p.timeSlice + (2 ^ 64 - schedTickNs)) % 2 ^ 64
      totalRuntime := (p.totalRuntime + schedTickNs) % 2 ^ 64 }
    schedTickNs

/-- The part of `scheduler_tick` under the lock. -/
def chargeCurrent (s : RunQueue) : RunQueue :=
  let s := { s with tickCount := (s.tickCount + 1) % 2 ^ 64 }
  let s := s.modify s.current charge
  let exhausted := decide ((s.procs s.current).timeSlice ≤ 0)
  let waiting := higherWaiting s (s.procs s.current).priority
  let s := s.modify s.current boostStarved
  { s with needResched := exhausted || waiting || s.needResched }

def schedulerTick (s : RunQueue) (now : ℕ) : Option RunQueue :=
  if s.current = 0 then some s
  else
    let s := chargeCurrent s
    if s.needResched then schedulerReschedule s now else some s

def schedulerYield (s : RunQueue) (now : ℕ) : Option RunQueue :=
  if s.current ≠ 0 ∧ (s.procs s.current).state = .running then
    let s := s.modify s.current fun p => { p with timeSlice := timesliceNs p.priority }
    schedulerReschedule { s with needResched := true } now
  else schedulerReschedule s now

def schedulerBlock (s : RunQueue) (now : ℕ) : Option RunQueue :=
  if s.current ≠ 0 then
    let s := s.modify s.current fun p => { p with state := .blocked }
    schedulerReschedule { s with nrBlocked := (s.nrBlocked + 1) % 2 ^ 64, needResched := true } now
  else schedulerReschedule s now

def schedulerWake (s : RunQueue) (proc : Ptr) : ℤ × RunQueue :=
  if proc = 0 then (-1, s)
  else if (s.procs proc).state = .ready ∨ (s.procs proc).state = .running then (1, s)
  else
    let s := s.modify proc fun p => { p with state := .ready, timeSlice := timesliceNs p.priority }
    let s := prioArrayAdd s s.active proc
    let s := { s with
      nrRunning := (s.nrRunning + 1) % 2 ^ 64
      nrBlocked := (s.nrBlocked + (2 ^ 64 - 1)) % 2 ^ 64 }
    (0, checkPreempt s proc)

def policyPriority (policy : Policy) (priority : ℤ) : Option ℤ :=
  match policy with
  | .fifo | .rr => if schedPrioNormal ≤ priority then none else some priority
  | .normal | .batch => if priority < schedPrioNormal then none else some priority
  | .idle => some schedPrioIdle

def setPriority (s : RunQueue) (proc : Ptr) (priority : ℤ) : RunQueue :=
  s.modify proc fun p =>
    { p with basePriority := priority, priority := priority, timeSlice := timesliceNs priority }

def requeue (s : RunQueue) (proc : Ptr) (priority : ℤ) : RunQueue :=
  if s.Queued proc then
    prioArrayAdd (setPriority (prioArrayRemove s s.active proc) proc priority) s.active proc
  else setPriority s proc priority

def schedulerSetPolicy (s : RunQueue) (proc : Ptr) (policy : Policy) (priority : ℤ) : ℤ × RunQueue :=
  if proc = 0 ∨ priority < 0 ∨ schedPrioLevels ≤ priority then (-1, s)
  else
    match policyPriority policy priority with
    | none => (-2, s)
    | some priority =>
      let wasRunning := (s.procs proc).state = .running
      let s := requeue s proc priority
      if wasRunning ∧ s.current = proc ∧ higherWaiting s priority then (0, { s with needResched := true })
      else (0, s)

def boosted (p : Process) (amount : ℤ) : ℤ := max (p.basePriority - amount) 0

def schedulerBoostPriority (s : RunQueue) (proc : Ptr) (amount : ℤ) : ℤ × RunQueue :=
  if proc = 0 then (-1, s)
  else (0, s.modify proc fun p => { p with priority := boosted p amount })

def schedulerUnboostPriority (s : RunQueue) (proc : Ptr) : ℤ × RunQueue :=
  if proc = 0 then (-1, s)
  else (0, s.modify proc fun p => { p with priority := p.basePriority })

/-- Calls of the scheduler, with the time that those read that come to switch. Priorities and amounts are `int`s
whose differences do not overflow. -/
inductive Call
  | addProcess (proc : Ptr)
  | removeProcess (proc : Ptr)
  | reschedule (now : ℕ)
  | tick (now : ℕ)
  | yield (now : ℕ)
  | block (now : ℕ)
  | wake (proc : Ptr)
  | setPolicy (proc : Ptr) (policy : Policy) (priority : ℤ)
  | boostPriority (proc : Ptr) (amount : ℤ)
  | unboostPriority (proc : Ptr)

namespace RunQueue

def call (s : RunQueue) : Call → Option RunQueue
  | .addProcess proc => some (schedulerAddProcess s proc).2
  | .removeProcess proc => some (schedulerRemoveProcess s proc).2
  | .reschedule now => schedulerReschedule s now
  | .tick now => schedulerTick s now
  | .yield now => schedulerYield s now
  | .block now => schedulerBlock s now
  | .wake proc => some (schedulerWake s proc).2
  | .setPolicy proc policy priority => some (schedulerSetPolicy s proc policy priority).2
  | .boostPriority proc amount => some (schedulerBoostPriority s proc amount).2
  | .unboostPriority proc => some (schedulerUnboostPriority s proc).2

def Step (s : RunQueue) (c : Call) (s' : RunQueue) : Prop := s.call c = some s'

end RunQueue

end GcAos.Preempt
