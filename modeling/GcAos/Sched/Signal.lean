import GcAos.Sched.RunQueue

/-! The signals of `kernel/sched/signal.c`. A call of `do_signal` is a frame on the stack of the
task that has made it, since handlers run inside the call and a stopped task is switched out inside
it. -/

namespace GcAos.Sched
open Lib

def sigkill : ℕ := 9
def sigchld : ℕ := 17
def sigcont : ℕ := 18
def sigstop : ℕ := 19
def sigtstp : ℕ := 20
def sigttin : ℕ := 21
def sigttou : ℕ := 22
def sigurg : ℕ := 23
def sigwinch : ℕ := 28
def nsig : ℕ := 32

def sigDfl : ℕ := 0
def sigIgn : ℕ := 1

abbrev Sigset := BitVec 64

def sigBit (sig : ℕ) : Sigset := 1#64 <<< sig

/-- `struct sigaction`; its defaults are those of a zeroed record. -/
structure Sigaction where
  saHandler : ℕ := sigDfl
  saMask : Sigset := 0
  saFlags : ℤ := 0
  saRestorer : ℕ := 0
  deriving DecidableEq

structure SignalStruct where
  pending : Sigset := 0
  blocked : Sigset := 0
  actions : ℕ → Sigaction := fun _ => {}

inductive DefaultAction
  | ignore | cont | stop | term
  deriving DecidableEq

/-- The `switch` of `do_signal`. -/
def defaultAction (sig : ℕ) : DefaultAction :=
  if sig = sigchld ∨ sig = sigurg ∨ sig = sigwinch then .ignore
  else if sig = sigcont then .cont
  else if sig = sigstop ∨ sig = sigtstp ∨ sig = sigttin ∨ sig = sigttou then .stop
  else .term

/-- What `do_signal` finds to do. -/
def deliverable (σ : SignalStruct) : Sigset := σ.pending &&& ~~~σ.blocked

def sigPoolSize : ℕ := 64

/-- What a call of `do_signal` is about to do: to go on with its loop, or to return from a handler
or from `exit_task`, which never returns. -/
inductive CallMode
  | loop | handler | exit
  deriving DecidableEq

/-- A call of `do_signal`: the signals that it has found pending, and the next one that its loop
comes to. -/
structure SignalCall where
  pending : Sigset
  sig : ℕ
  mode : CallMode

/-- The scheduler with the signal state of its tasks, none where `signals` is null, and their calls of
`do_signal` that have not returned. -/
structure Signals where
  rq : Rq
  signals : ℕ → Option SignalStruct
  sigPoolIdx : ℕ
  calls : ℕ → List SignalCall

namespace Signals

def setSignals (s : Signals) (task : ℕ) (σ : SignalStruct) : Signals :=
  { s with signals := Function.update s.signals task (some σ) }

def setCalls (s : Signals) (task : ℕ) (calls : List SignalCall) : Signals :=
  { s with calls := Function.update s.calls task calls }

def signalInit (s : Signals) (task : ℕ) : Signals :=
  match s.signals task with
  | none => if s.sigPoolIdx < sigPoolSize then
      { s.setSignals task {} with sigPoolIdx := s.sigPoolIdx + 1 } else s
  | some σ => s.setSignals task
      { pending := 0
        blocked := 0
        actions := fun i =>
          if i < nsig then { σ.actions i with saHandler := sigDfl, saMask := 0, saFlags :=
            0 } else σ.actions i }

def killTask (s : Signals) (task : ℕ) (sig : ℤ) : ℤ × Signals :=
  if sig < 0 ∨ nsig ≤ sig then (-1, s)
  else if task = 0 then (-1, s)
  else
    match s.signals task with
    | none => (-1, s)
    | some σ =>
      let s := s.setSignals task { σ with pending := σ.pending ||| sigBit sig.toNat }
      if (s.rq.tasks task).state = .interruptible then (0, { s with rq := (wakeUpProcess s.rq task).2 })
      else (0, s)

/-- `sched_kill_task`, which knows the scheduler's part of a task only. -/
def schedKillTask (s : Signals) (pid : ℤ) : ℤ × Signals :=
  ((Sched.schedKillTask s.rq pid).1, { s with rq := (Sched.schedKillTask s.rq pid).2 })

/-- The result, what is stored in `oldset`, and the state after. -/
def sigprocmask (s : Signals) (how : ℤ) (set : Option Sigset) : ℤ × Option Sigset × Signals :=
  match s.signals s.rq.current with
  | none => (-1, none, s)
  | some σ =>
    let unblockable := sigBit sigkill ||| sigBit sigstop
    let store (blocked : Sigset) := s.setSignals s.rq.current
      { σ with blocked := blocked &&& ~~~unblockable }
    match set with
    | none => (0, some σ.blocked, store σ.blocked)
    | some set =>
      if how = 0 then (0, some σ.blocked, store (σ.blocked ||| set))
      else if how = 1 then (0, some σ.blocked, store (σ.blocked &&& ~~~set))
      else if how = 2 then (0, some σ.blocked, store set)
      else (-1, some σ.blocked, s)

/-- The result, what is stored in `oldact`, and the state after. -/
def sigactionSyscall (s : Signals) (sig : ℤ) (act : Option Sigaction) :
    ℤ × Option Sigaction × Signals :=
  if sig < 1 ∨ nsig ≤ sig then (-1, none, s)
  else if sig = sigkill ∨ sig = sigstop then (-1, none, s)
  else
    match s.signals s.rq.current with
    | none => (-1, none, s)
    | some σ =>
      (0, some (σ.actions sig.toNat),
        match act with
        | none => s
        | some act => s.setSignals s.rq.current
            { σ with actions := Function.update σ.actions sig.toNat act })

def sigDefaultTerm (s : Signals) (sig : ℕ) : Signals := { s with rq := exitTask s.rq sig }

def sigDefaultStop (s : Signals) : Signals :=
  { s with rq := schedule (s.rq.modify s.rq.current fun t => { t with state := .stopped }) }

def sigDefaultCont (s : Signals) : Signals :=
  { s with rq := s.rq.modify s.rq.current fun t => { t with state := .running } }

/-- `do_signal`, called by the current task for itself, up to its loop. -/
def doSignal (s : Signals) : Signals :=
  match s.signals s.rq.current with
  | none => s
  | some σ =>
    if deliverable σ = 0 then s
    else s.setCalls s.rq.current (⟨deliverable σ, 1, .loop⟩ :: s.calls s.rq.current)

/-- The body of the loop for a signal that is pending, in the call `c` on top of `calls`. -/
def take (s : Signals) (σ : SignalStruct) (c : SignalCall) (calls : List SignalCall) : Signals :=
  let task := s.rq.current
  let s := s.setSignals task { σ with pending := σ.pending &&& ~~~sigBit c.sig }
  let goOn (mode : CallMode) := s.setCalls task ({ c with sig := c.sig + 1, mode } :: calls)
  if (σ.actions c.sig).saHandler = sigIgn then goOn .loop
  else if (σ.actions c.sig).saHandler = sigDfl then
    match defaultAction c.sig with
    | .ignore => goOn .loop
    | .cont => (goOn .loop).sigDefaultCont
    | .stop => (goOn .loop).sigDefaultStop
    | .term => (goOn .exit).sigDefaultTerm c.sig
  else goOn .handler

end Signals

/-! ## Runs -/

/-- Calls of other parts of the scheduler, and the steps of tasks; `task` is the one that makes a
step. -/
inductive SignalAction
  | killTask (target : ℕ) (sig : ℤ)
  | schedKillTask (pid : ℤ)
  | sigprocmask (task : ℕ) (how : ℤ) (set : Option Sigset)
  | sigaction (task : ℕ) (sig : ℤ) (act : Option Sigaction)
  | doSignal (task : ℕ)
  | next (task sig : ℕ)
  | take (task sig : ℕ)
  | ret (task : ℕ)
  | handlerReturn (task : ℕ)
  | sched (call : SchedCall)
  deriving DecidableEq

namespace Signals

/-- The current task is not in the loop of `do_signal`, nor in `exit_task`. -/
def Free (s : Signals) : Prop := ∀ c ∈ (s.calls s.rq.current).head?, c.mode = .handler

/-- Anyone sends signals and calls the scheduler, interrupts do too. The current task does the rest. -/
inductive Step : Signals → SignalAction → Signals → Prop
  | killTask {s : Signals} {target : ℕ} {sig : ℤ} :
      Step s (.killTask target sig) (s.killTask target sig).2
  | schedKillTask {s : Signals} {pid : ℤ} : Step s (.schedKillTask pid) (s.schedKillTask pid).2
  | sigprocmask {s : Signals} {how : ℤ} {set : Option Sigset} (hfree : s.Free) :
      Step s (.sigprocmask s.rq.current how set) (s.sigprocmask how set).2.2
  | sigaction {s : Signals} {sig : ℤ} {act : Option Sigaction} (hfree : s.Free) :
      Step s (.sigaction s.rq.current sig act) (s.sigactionSyscall sig act).2.2
  | doSignal {s : Signals} (hfree : s.Free) : Step s (.doSignal s.rq.current) s.doSignal
  | next {s : Signals} {c : SignalCall} {calls : List SignalCall}
      (hcall : s.calls s.rq.current = c :: calls)
      (hloop : c.mode = .loop) (hsig : c.sig < nsig) (hclear : c.pending.getLsbD c.sig = false) :
      Step s (.next s.rq.current c.sig) (s.setCalls s.rq.current ({ c with sig := c.sig + 1 } :: calls))
  | take {s : Signals} {σ : SignalStruct} {c : SignalCall} {calls : List SignalCall}
      (hsignals : s.signals s.rq.current = some σ) (hcall : s.calls s.rq.current = c :: calls)
      (hloop : c.mode = .loop) (hsig : c.sig < nsig) (hset : c.pending.getLsbD c.sig = true) :
      Step s (.take s.rq.current c.sig) (s.take σ c calls)
  | ret {s : Signals} {c : SignalCall} {calls : List SignalCall}
      (hcall : s.calls s.rq.current = c :: calls)
      (hloop : c.mode = .loop) (hsig : nsig ≤ c.sig) :
      Step s (.ret s.rq.current) (s.setCalls s.rq.current calls)
  | handlerReturn {s : Signals} {c : SignalCall} {calls : List SignalCall}
      (hcall : s.calls s.rq.current = c :: calls) (hmode : c.mode = .handler) :
      Step s (.handlerReturn s.rq.current) (s.setCalls s.rq.current ({ c with mode := .loop } :: calls))
  | sched {s : Signals} {call : SchedCall} : Step s (.sched call) { s with rq := s.rq.call call }

/-- Some tasks have got their signal state, and no signal has been sent. -/
def start (rq : Rq) (tasks : List ℕ) : Signals :=
  tasks.foldl signalInit { rq, signals := fun _ => none, sigPoolIdx := 0, calls := fun _ => [] }

end Signals

end GcAos.Sched
