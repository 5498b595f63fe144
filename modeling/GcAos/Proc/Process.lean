import GcAos.Lib.Exec
import GcAos.Lib.Loop
import Mathlib.Algebra.GroupWithZero.Nat
import Mathlib.Data.Int.DivMod
import Mathlib.Data.List.FinRange
import Mathlib.Logic.Function.Basic

/-! The process table of `kernel/core/process.c`. Registers are those of ARM64, and `next_pid` does not
reach the end of `int`, where counting on is undefined. -/

namespace GcAos.Proc
open Lib

def maxProcesses : ℕ := 16
def processNameMax : ℕ := 32
def processStackSize : ℕ := 0x100000
def programLoadBase : ℕ := 0x44000000

inductive ProcState
  | free | ready | running | blocked | zombie
  deriving DecidableEq

/-- `cpu_context_t`, zeroed by default. -/
structure Context where
  x : Fin 31 → ℕ := fun _ => 0
  sp : ℕ := 0
  pc : ℕ := 0
  pstate : ℕ := 0

/-- `process_t`; the null pointer is 0, and a name stands without its terminator. -/
structure Process where
  pid : ℤ := 0
  name : List UInt8 := []
  state : ProcState := .free
  loadBase : ℕ := 0
  loadSize : ℕ := 0
  stackBase : ℕ := 0
  stackSize : ℕ := 0
  entry : ℕ := 0
  context : Context := {}
  exitStatus : ℤ := 0
  parentPid : ℤ := 0

abbrev Slot : Type := Fin maxProcesses

instance : NeZero maxProcesses := ⟨by decide⟩

/-- The static data of `process.c`. The index `current_pid` is `none` where the source has -1, and
`current_process` points to an entry of the table. -/
structure Kernel where
  procTable : Slot → Process
  currentPid : Option Slot
  nextPid : ℤ
  currentProcess : Option Slot
  kernelContext : Context
  programBase : ℕ
  nextLoadAddr : ℕ

def align64K (x : ℕ) : ℕ := (x + 0xFFFF) % 2 ^ 64 / 0x10000 * 0x10000

namespace Kernel

def modify (k : Kernel) (i : Slot) (f : Process → Process) : Kernel :=
  { k with procTable := Function.update k.procTable i (f (k.procTable i)) }

def state (k : Kernel) (i : Slot) : ProcState := (k.procTable i).state

def setState (k : Kernel) (i : Slot) (s : ProcState) : Kernel := k.modify i fun p => { p with state := s }

/-- `current_pid` as the number it is. -/
def currentNumber (k : Kernel) : ℤ :=
  match k.currentPid with
  | none => -1
  | some i => i.val

/-- Static storage before `process_init`. -/
def static : Kernel where
  procTable _ := {}
  currentPid := none
  nextPid := 1
  currentProcess := none
  kernelContext := {}
  programBase := 0
  nextLoadAddr := 0

end Kernel

def processInit (k : Kernel) : Kernel :=
  { k with
    procTable := fun i => { k.procTable i with state := .free, pid := 0, context := {} }
    currentPid := none
    currentProcess := none
    nextPid := 1
    programBase := align64K programLoadBase
    nextLoadAddr := align64K programLoadBase }

def findFreeSlotUnlocked (k : Kernel) : Option Slot :=
  (List.finRange maxProcesses).find? fun i => k.state i = .free

def processCountReady (k : Kernel) : ℕ :=
  (List.finRange maxProcesses).countP fun i => k.state i = .ready ∨ k.state i = .running

/-- The node that `vfs_lookup` finds. -/
structure File where
  isDir : Bool
  size : ℕ

structure LoadInfo where
  loadBase : ℕ
  loadSize : ℕ
  entry : ℕ

/-- A call of `process_create`, with what the file system, the allocator and the loader answer in
it. -/
structure Request where
  path : List UInt8
  argc : ℕ
  argv : ℕ
  -- `vfs_lookup`
  file : Option File
  -- the buffer for the file and the bytes read into it
  data : ℕ
  bytes : ℤ
  -- `elf_calc_size`, `aslr_exec_offset` and `elf_load_at`
  progSize : ℕ
  aslrOffset : ℕ
  loadAt : ℕ → ℤ × LoadInfo
  -- the stack
  stack : ℕ
  -- the addresses of `process_entry_wrapper` and of the kernel interface
  wrapper : ℕ
  kapi : ℕ

namespace Request

def context (r : Request) (entry : ℕ) : Context where
  x i :=
    if i = 19 then entry
    else if i = 20 then r.kapi
    else if i = 21 then r.argc
    else if i = 22 then r.argv
    else 0
  sp := (r.stack + processStackSize) % 2 ^ 64 / 16 * 16
  pc := r.wrapper
  pstate := 0x3c5

def loadAddr (r : Request) (k : Kernel) : ℕ := align64K (k.nextLoadAddr + r.aslrOffset)

end Request

/-- The slot and a pid are taken before anything is known about the file. -/
def reserve (k : Kernel) (slot : Slot) : Kernel :=
  { k.modify slot fun p => { p with state := .ready, pid := k.nextPid } with nextPid := k.nextPid + 1 }

/-- The rest of `process_create` once the program is loaded. -/
def setUp (k : Kernel) (r : Request) (slot : Slot) (info : LoadInfo) : ℤ × Kernel :=
  let pid := k.nextPid
  let k := { k with
    nextLoadAddr := align64K (r.loadAddr k + info.loadSize + 0x10000)
    nextPid := k.nextPid + 1 }
  let k := k.modify slot fun p =>
    { p with
      pid
      name := r.path.take (processNameMax - 1)
      state := .ready
      loadBase := info.loadBase
      loadSize := info.loadSize
      entry := info.entry
      parentPid := k.currentNumber
      exitStatus := 0
      stackSize := processStackSize
      stackBase := r.stack }
  if r.stack = 0 then (-1, k.setState slot .free)
  else (pid, k.modify slot fun p => { p with context := r.context info.entry })

def processCreate (k : Kernel) (r : Request) : ℤ × Kernel :=
  match findFreeSlotUnlocked k with
  | none => (-1, k)
  | some slot =>
    let k := reserve k slot
    match r.file with
    | none => (-1, k)
    | some file =>
      if file.isDir then (-1, k)
      else if file.size = 0 then (-1, k)
      else if r.data = 0 then (-1, k)
      else if r.bytes ≠ (file.size : ℤ).bmod (2 ^ 32) then (-1, k)
      else if r.progSize = 0 then (-1, k)
      else if (r.loadAt (r.loadAddr k)).1 ≠ 0 then (-1, k)
      else setUp k r slot (r.loadAt (r.loadAddr k)).2

/-- One entry in the loop of `kill_children` over the table; the work stack has its top first. -/
def killChild (parent : ℤ) (w : List ℤ × Kernel) (i : Slot) : List ℤ × Kernel :=
  let child := w.2.procTable i
  if child.state ≠ .free ∧ child.parentPid = parent then
    let stack := if w.1.length < maxProcesses then child.pid :: w.1 else w.1
    if w.2.currentPid ≠ some i then
      (stack, w.2.modify i fun p => { p with stackBase := 0, state := .free, pid := 0 })
    else (stack, w.2)
  else w

def killTurn : List ℤ × Kernel → Option (List ℤ × Kernel)
  | ([], _) => none
  | (parent :: stack, k) => some ((List.finRange maxProcesses).foldl (killChild parent) (stack, k))

/-- More turns than `kill_children` takes if it ends: a slot other than the current one is pushed once,
and the current one as often as its parent is. -/
def killTurns : ℕ := 2 * maxProcesses

/-- `none` if the loop does not end. -/
def killChildren (k : Kernel) (parent : ℤ) : Option Kernel :=
  match Loop.run killTurn killTurns ([parent], k) with
  | ([], k) => some k
  | _ => none

/-- `switch_context` saves the registers and does not come back before another switch. -/
def saveContext (k : Kernel) (saved : Context) : Option Slot → Kernel
  | none => { k with kernelContext := saved }
  | some i => k.modify i fun p => { p with context := saved }

def processExit (k : Kernel) (status : ℤ) (saved : Context) : Option Kernel :=
  match k.currentPid with
  | none => some k
  | some slot => do
    let k ← killChildren k (k.procTable slot).pid
    let k := k.modify slot fun p => { p with exitStatus := status, state := .free }
    let k := { k with currentPid := none, currentProcess := none }
    -- a kernel context that is not set up: the source stays here for ever
    if k.kernelContext.pc = 0 ∨ k.kernelContext.sp = 0 then some k
    else some (saveContext k saved (some slot))

/-- Where the round-robin starts. -/
def start (k : Kernel) : ℕ :=
  match k.currentPid with
  | none => 0
  | some old => old.val + 1

def rotation (k : Kernel) : List Slot :=
  (List.range maxProcesses).map fun i => Fin.ofNat maxProcesses (start k + i)

def stopCurrent (k : Kernel) : Kernel :=
  match k.currentPid with
  | none => k
  | some old => if k.state old = .running then k.setState old .ready else k

/-- What both schedulers do with the process they switch to. -/
def switchTo (k : Kernel) (next : Slot) : Kernel :=
  { (stopCurrent k).setState next .running with currentPid := some next, currentProcess := some next }

def processSchedule (k : Kernel) (saved : Context) : Kernel :=
  match (rotation k).find? fun i => k.state i = .ready with
  | none =>
    match k.currentPid with
    | none => k
    | some old =>
      if k.state old = .running then k
      else saveContext { k with currentPid := none, currentProcess := none } saved (some old)
  | some next =>
    if k.currentPid = some next ∧ k.state next = .running then k
    else if k.currentPid = some next ∧ k.state next = .ready then
      k.setState next .running
    else saveContext (switchTo k next) saved k.currentPid

def processYield (k : Kernel) (saved : Context) : Kernel :=
  match k.currentPid with
  | none => processSchedule k saved
  | some i => processSchedule (k.setState i .ready) saved

def processScheduleFromIrq (k : Kernel) : Kernel :=
  if k.currentPid.isSome ∧ processCountReady k ≤ 1 then k
  else if k.currentPid = none ∧ processCountReady k = 0 then k
  else
    -- slots whose context is not valid are passed over
    match (rotation k).find? fun i => k.state i = .ready ∧
      (k.currentPid = some i ∨ (k.procTable i).context.sp ≠ 0 ∧ (k.procTable i).context.pc ≠ 0) with
    | none => k
    | some i => if k.currentPid = some i then k else switchTo k i

/-- The timer interrupt. The handler saves the registers of the current process first, and those of the
kernel if it is left for a process. -/
def irqHandler (k : Kernel) (saved : Context) : Kernel :=
  match k.currentProcess with
  | none =>
    let k := processScheduleFromIrq k
    if k.currentProcess = none then k else saveContext k saved none
  | some i => processScheduleFromIrq (saveContext k saved (some i))

def processKill (k : Kernel) (pid : ℤ) : Option (ℤ × Kernel) :=
  if pid ≤ 0 then some (-1, k)
  else
    match (List.finRange maxProcesses).find? fun i =>
      (k.procTable i).pid = pid ∧ k.state i ≠ .free with
    | none => some (-1, k)
    | some slot =>
      if k.currentPid = some slot then some (-1, k)
      else do
        let k ← killChildren k pid
        some (0, k.modify slot fun p => { p with stackBase := 0, state := .free, pid := 0 })

inductive Call
  | create (r : Request)
  | yield (saved : Context)
  | schedule (saved : Context)
  | scheduleFromIrq (saved : Context)
  | exit (status : ℤ) (saved : Context)
  | kill (pid : ℤ)

namespace Kernel

def call (k : Kernel) : Call → Option Kernel
  | .create r => some (processCreate k r).2
  | .yield saved => some (processYield k saved)
  | .schedule saved => some (processSchedule k saved)
  | .scheduleFromIrq saved => some (irqHandler k saved)
  | .exit status saved => processExit k status saved
  | .kill pid => (processKill k pid).map Prod.snd

def Step (k : Kernel) (c : Call) (k' : Kernel) : Prop := k.call c = some k'

/-- A run of the process code, from `process_init` on. -/
def Run (calls : List Call) (k : Kernel) : Prop := Exec Step (processInit .static) calls k

end Kernel

end GcAos.Proc
