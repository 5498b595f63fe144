import GcAos.Lib.Traces

/-! The ARM64 spinlock of `kernel/sync/spinlock.c`, one instruction a step, on any number of CPUs
whose instructions interleave in any order. The exclusive monitor of a CPU and its event register
are those of the architecture: a store to the marked word opens the monitor of every other CPU that
has marked it, and sets the event register of that CPU. -/

namespace GcAos.Sync
open Lib

/-- The next instruction of a CPU: of `spin_lock`, of `spin_trylock`, or `stlr` of `spin_unlock`. -/
inductive ArmPc
  | out
  | sevl | wfe | ldaxr | cbnz | stxr | cbnzStatus
  | tryLdaxr | tryCbnz | tryStxr | tryCbz
  | stlr
  deriving DecidableEq

structure ArmCpu where
  pc : ArmPc
  tmp : ℕ
  result : ℕ
  exclusive : Bool
  event : Bool
  -- no register: the CPU has taken the lock and not yet given it back
  holds : Bool
  deriving DecidableEq

structure ArmLock (ι : Type*) where
  lock : ℕ
  cpu : ι → ArmCpu

/-- The calls of a CPU, its next instruction, and an event that comes from elsewhere, with or
without the loss of the monitor. `chance` is what the architecture leaves open: whether `wfe` goes on
without an event, whether `stxr` fails with the monitor closed, whether `stlr` leaves the own monitor. -/
inductive ArmAct (ι β : Type*)
  | spinLock (i : ι)
  | spinTrylock (i : ι)
  | spinUnlock (i : ι)
  | exec (i : ι) (chance : Bool)
  | access (i : ι) (b : β)
  | disturb (i : ι) (lost : Bool)

def ArmCpu.snoop (c : ArmCpu) : ArmCpu :=
  if c.exclusive then { c with exclusive := false, event := true } else c

namespace ArmLock

variable {ι β : Type*} [DecidableEq ι]

def set (s : ArmLock ι) (i : ι) (c : ArmCpu) : ArmLock ι := { s with cpu := Function.update s.cpu i c }

def store (s : ArmLock ι) (i : ι) (v : ℕ) : ArmLock ι where
  lock := v
  cpu j := if j = i then s.cpu j else (s.cpu j).snoop

def exec (s : ArmLock ι) (i : ι) (chance : Bool) : Option (ArmLock ι) :=
  let c := s.cpu i
  match c.pc with
  | .out => none
  | .sevl => some (s.set i { c with pc := .wfe, event := true })
  | .wfe => if c.event || chance then some (s.set i { c with pc := .ldaxr, event := false }) else none
  | .ldaxr => some (s.set i { c with pc := .cbnz, tmp := s.lock, exclusive := true })
  | .cbnz => some (s.set i { c with pc := if c.tmp ≠ 0 then .wfe else .stxr })
  | .stxr =>
    if c.exclusive && !chance then
      some ((s.store i 1).set i { c with pc := .cbnzStatus, tmp := 0, exclusive := false, holds := true })
    else some (s.set i { c with pc := .cbnzStatus, tmp := 1, exclusive := false })
  | .cbnzStatus => some (s.set i { c with pc := if c.tmp ≠ 0 then .ldaxr else .out })
  | .tryLdaxr => some (s.set i { c with pc := .tryCbnz, tmp := s.lock, exclusive := true })
  | .tryCbnz =>
    if c.tmp ≠ 0 then some (s.set i { c with pc := .out, result := 0 })
    else some (s.set i { c with pc := .tryStxr })
  | .tryStxr =>
    if c.exclusive && !chance then
      some ((s.store i 1).set i { c with pc := .tryCbz, tmp := 0, exclusive := false, holds := true })
    else some (s.set i { c with pc := .tryCbz, tmp := 1, exclusive := false })
  | .tryCbz => some (s.set i { c with pc := .out, result := if c.tmp = 0 then 1 else 0 })
  | .stlr =>
    some ((s.store i 0).set i { c with pc := .out, exclusive := c.exclusive && chance, holds := false })

/-- A CPU calls while it is in none of the functions, and unlocks and touches the protected data
only when it holds the lock. -/
def step (s : ArmLock ι) : ArmAct ι β → Option (ArmLock ι)
  | .spinLock i => if (s.cpu i).pc = .out then some (s.set i { s.cpu i with pc := .sevl }) else none
  | .spinTrylock i =>
    if (s.cpu i).pc = .out then some (s.set i { s.cpu i with pc := .tryLdaxr }) else none
  | .spinUnlock i =>
    if (s.cpu i).pc = .out ∧ (s.cpu i).holds then some (s.set i { s.cpu i with pc := .stlr }) else none
  | .exec i chance => s.exec i chance
  | .access i _ => if (s.cpu i).pc = .out ∧ (s.cpu i).holds then some s else none
  | .disturb i lost =>
    some (s.set i { s.cpu i with event := true, exclusive := (s.cpu i).exclusive && !lost })

/-- The lock is taken by the `stxr` that succeeds and given back by `stlr`. -/
def emit (s : ArmLock ι) : ArmAct ι β → ArmLock ι → List (LockEvent ι β)
  | .exec i _, t =>
    match (s.cpu i).holds, (t.cpu i).holds with
    | false, true => [.acquire i]
    | true, false => [.release i]
    | _, _ => []
  | .access i b, _ => [.access i b]
  | _, _ => []

/-- After `spin_lock_init`, with whatever the registers and the monitors hold. -/
structure Init (s : ArmLock ι) : Prop where
  lock : s.lock = 0
  out : ∀ i, (s.cpu i).pc = .out
  holds : ∀ i, (s.cpu i).holds = false

end ArmLock

/-! What holds of one CPU at each of its instructions. -/

def ArmCpu.Ok (lock : ℕ) (c : ArmCpu) : Prop :=
  match c.pc with
  | .wfe => c.event = false → c.exclusive = true ∧ lock ≠ 0
  | .cbnz => (c.event = false → c.exclusive = true) ∧ (c.exclusive = true → c.tmp = lock) ∧
      (c.tmp = 0 → c.holds = false)
  | .stxr | .tryStxr => (c.exclusive = true → lock = 0) ∧ c.holds = false
  | .cbnzStatus | .tryCbz => c.tmp = 0 ↔ c.holds = true
  | .tryCbnz => (c.exclusive = true → c.tmp = lock) ∧ (c.tmp = 0 → c.holds = false)
  | .stlr => c.holds = true
  | _ => True

namespace ArmCpu

@[simp] theorem snoop_pc (c : ArmCpu) : c.snoop.pc = c.pc := by unfold snoop; split <;> rfl

@[simp] theorem snoop_holds (c : ArmCpu) : c.snoop.holds = c.holds := by unfold snoop; split <;> rfl

@[simp] theorem snoop_tmp (c : ArmCpu) : c.snoop.tmp = c.tmp := by unfold snoop; split <;> rfl

@[simp] theorem snoop_exclusive (c : ArmCpu) : c.snoop.exclusive = false := by
  unfold snoop
  split
  · rfl
  · simpa using ‹¬c.exclusive = true›

theorem snoop_event (c : ArmCpu) (h : c.snoop.event = false) : c.event = false ∧ c.exclusive = false := by
  unfold snoop at h
  split at h
  · cases h
  · exact ⟨h, by simpa using ‹¬c.exclusive = true›⟩

/-- A store to the lock word wakes whoever it could leave asleep, whatever it stores. -/
theorem Ok.snoop {c : ArmCpu} {lock : ℕ} (h : c.Ok lock) (v : ℕ) : c.snoop.Ok v := by
  unfold Ok at h ⊢
  rw [snoop_pc]
  cases hpc : c.pc <;> simp only [hpc, snoop_holds, snoop_tmp, snoop_exclusive] at h ⊢
  case wfe =>
    intro hev
    obtain ⟨hev, hex⟩ := snoop_event c hev
    simp [(h hev).1] at hex
  case cbnz =>
    refine ⟨fun hev => ?_, by simp, h.2.2⟩
    obtain ⟨hev, hex⟩ := snoop_event c hev
    simp [h.1 hev] at hex
  case stxr => exact ⟨by simp, h.2⟩
  case tryStxr => exact ⟨by simp, h.2⟩
  case tryCbnz => exact ⟨by simp, h.2⟩
  case cbnzStatus => exact h
  case tryCbz => exact h
  case stlr => exact h

theorem Ok.disturb {c : ArmCpu} {lock : ℕ} (h : c.Ok lock) (lost : Bool) :
    ({ c with event := true, exclusive := c.exclusive && !lost } : ArmCpu).Ok lock := by
  unfold Ok at h ⊢
  cases hpc : c.pc <;> simp only [hpc] at h ⊢
  case wfe => simp
  case cbnz => exact ⟨by simp, fun hex => h.2.1 (Bool.and_eq_true_iff.mp hex).1, h.2.2⟩
  case stxr => exact ⟨fun hex => h.1 (Bool.and_eq_true_iff.mp hex).1, h.2⟩
  case tryStxr => exact ⟨fun hex => h.1 (Bool.and_eq_true_iff.mp hex).1, h.2⟩
  case tryCbnz => exact ⟨fun hex => h.1 (Bool.and_eq_true_iff.mp hex).1, h.2⟩
  case cbnzStatus => exact h
  case tryCbz => exact h
  case stlr => exact h

end ArmCpu

namespace ArmLock

variable {ι β : Type*} {s t : ArmLock ι} {o : Option ι} {i : ι} {c : ArmCpu}

structure HeldBy (s : ArmLock ι) (o : Option ι) : Prop where
  lock : s.lock = 0 ↔ o = none
  holds : ∀ i, (s.cpu i).holds = true ↔ o = some i
  ok : ∀ i, (s.cpu i).Ok s.lock

theorem Init.heldBy (h : s.Init) : s.HeldBy none where
  lock := by simp [h.lock]
  holds i := by simp [h.holds i]
  ok i := by simp [ArmCpu.Ok, h.out i]

theorem HeldBy.free_of_lock (h : s.HeldBy o) (hlock : s.lock = 0) : (s.cpu i).holds = false := by
  rw [Bool.eq_false_iff]
  intro hholds
  have ho := (h.holds i).mp hholds
  rw [h.lock.mp hlock] at ho
  cases ho

variable [DecidableEq ι]

@[simp] theorem set_lock : (s.set i c).lock = s.lock := rfl

@[simp] theorem set_cpu_self : (s.set i c).cpu i = c := Function.update_self ..

@[simp] theorem set_cpu_of_ne {j : ι} (h : j ≠ i) : (s.set i c).cpu j = s.cpu j :=
  Function.update_of_ne h ..

theorem store_cpu_of_ne {v : ℕ} {j : ι} (h : j ≠ i) : (s.store i v).cpu j = (s.cpu j).snoop := if_neg h

theorem HeldBy.set (h : s.HeldBy o) (hholds : c.holds = (s.cpu i).holds) (hok : c.Ok s.lock) :
    (s.set i c).HeldBy o := by
  refine ⟨h.lock, fun j => ?_, fun j => ?_⟩
  · obtain rfl | hj := eq_or_ne j i
    · rw [set_cpu_self, hholds]
      exact h.holds j
    · rw [set_cpu_of_ne hj]
      exact h.holds j
  · obtain rfl | hj := eq_or_ne j i
    · rw [set_cpu_self]
      exact hok
    · rw [set_cpu_of_ne hj]
      exact h.ok j

theorem HeldBy.store (h : s.HeldBy o) {v : ℕ} {o' : Option ι} (hv : v = 0 ↔ o' = none)
    (hc : c.holds = true ↔ o' = some i) (hother : ∀ j ≠ i, o = some j ↔ o' = some j) (hok : c.Ok v) :
    ((s.store i v).set i c).HeldBy o' := by
  refine ⟨hv, fun j => ?_, fun j => ?_⟩
  · obtain rfl | hj := eq_or_ne j i
    · rw [set_cpu_self]
      exact hc
    · rw [set_cpu_of_ne hj, store_cpu_of_ne hj, ArmCpu.snoop_holds, h.holds j]
      exact hother j hj
  · obtain rfl | hj := eq_or_ne j i
    · rw [set_cpu_self]
      exact hok
    · rw [set_cpu_of_ne hj, store_cpu_of_ne hj]
      exact (h.ok j).snoop v

theorem HeldBy.acquire (h : s.HeldBy o) (hlock : s.lock = 0) (hc : c.holds = true) (hok : c.Ok 1) :
    o = none ∧ ((s.store i 1).set i c).HeldBy (some i) := by
  have ho := h.lock.mp hlock
  refine ⟨ho, h.store (by simp) (by simp [hc]) (fun j hj => ?_) hok⟩
  simp [ho, hj.symm]

theorem HeldBy.release (h : s.HeldBy o) (hholds : (s.cpu i).holds = true) (hc : c.holds = false)
    (hok : c.Ok 0) : o = some i ∧ ((s.store i 0).set i c).HeldBy none := by
  have ho := (h.holds i).mp hholds
  refine ⟨ho, h.store (by simp) (by simp [hc]) (fun j hj => ?_) hok⟩
  simp [ho, hj.symm]

/-! The events of a step. -/

section step

variable {chance : Bool} {b : β}

theorem HeldBy.exec_local (h : s.HeldBy o) (hholds : c.holds = (s.cpu i).holds) (hok : c.Ok s.lock) :
    ∃ o', (emit s (.exec i chance : ArmAct ι β) (s.set i c)).foldlM LockEvent.next o = some o' ∧
      (s.set i c).HeldBy o' := by
  refine ⟨o, ?_, h.set hholds hok⟩
  simp only [emit, set_cpu_self, hholds]
  cases (s.cpu i).holds <;> rfl

theorem HeldBy.exec_acquire (h : s.HeldBy o) (hlock : s.lock = 0) (hfree : (s.cpu i).holds = false)
    (hc : c.holds = true) (hok : c.Ok 1) :
    ∃ o', (emit s (.exec i chance : ArmAct ι β)
        ((s.store i 1).set i c)).foldlM LockEvent.next o = some o' ∧ ((s.store i 1).set i c).HeldBy o' := by
  obtain ⟨rfl, hby⟩ := h.acquire (i := i) hlock hc hok
  refine ⟨some i, ?_, hby⟩
  simp [emit, hfree, hc, LockEvent.next]

theorem HeldBy.exec_release (h : s.HeldBy o) (hholds : (s.cpu i).holds = true) (hc : c.holds = false)
    (hok : c.Ok 0) :
    ∃ o', (emit s (.exec i chance : ArmAct ι β)
        ((s.store i 0).set i c)).foldlM LockEvent.next o = some o' ∧ ((s.store i 0).set i c).HeldBy o' := by
  obtain ⟨rfl, hby⟩ := h.release hholds hc hok
  refine ⟨none, ?_, hby⟩
  simp [emit, hholds, hc, LockEvent.next]

theorem HeldBy.exec (h : s.HeldBy o) (hst : s.exec i chance = some t) :
    ∃ o', (emit s (.exec i chance : ArmAct ι β) t).foldlM LockEvent.next o = some o' ∧ t.HeldBy o' := by
  have hok := h.ok i
  unfold ArmLock.exec at hst
  unfold ArmCpu.Ok at hok
  cases hpc : (s.cpu i).pc <;> simp only [hpc] at hst hok
  case out => cases hst
  case sevl =>
    obtain rfl := Option.some.inj hst
    exact h.exec_local rfl (by simp [ArmCpu.Ok])
  case wfe =>
    obtain ⟨-, hst⟩ := Option.ite_none_right_eq_some.mp hst
    obtain rfl := Option.some.inj hst
    exact h.exec_local rfl trivial
  case ldaxr =>
    obtain rfl := Option.some.inj hst
    exact h.exec_local rfl ⟨fun _ => rfl, fun _ => rfl, fun hlock => h.free_of_lock hlock⟩
  case cbnz =>
    obtain rfl := Option.some.inj hst
    obtain ⟨hwake, htmp, hfree⟩ := hok
    refine h.exec_local rfl ?_
    by_cases h0 : (s.cpu i).tmp = 0
    · simp only [h0, ne_eq, not_true_eq_false, if_false]
      exact ⟨fun hex => (htmp hex).symm.trans h0, hfree h0⟩
    · simp only [ne_eq, h0, not_false_eq_true, if_true]
      exact fun hev => ⟨hwake hev, htmp (hwake hev) ▸ h0⟩
  case stxr =>
    split_ifs at hst with hgo
    · obtain rfl := Option.some.inj hst
      exact h.exec_acquire (hok.1 (Bool.and_eq_true_iff.mp hgo).1) hok.2 rfl (by simp [ArmCpu.Ok])
    · obtain rfl := Option.some.inj hst
      exact h.exec_local rfl (by simp [ArmCpu.Ok, hok.2])
  case cbnzStatus =>
    obtain rfl := Option.some.inj hst
    refine h.exec_local rfl ?_
    by_cases h0 : (s.cpu i).tmp = 0 <;> simp [ArmCpu.Ok, h0]
  case tryLdaxr =>
    obtain rfl := Option.some.inj hst
    exact h.exec_local rfl ⟨fun _ => rfl, fun hlock => h.free_of_lock hlock⟩
  case tryCbnz =>
    split_ifs at hst with h0
    · obtain rfl := Option.some.inj hst
      exact h.exec_local rfl trivial
    · obtain rfl := Option.some.inj hst
      have h0 := not_not.mp h0
      exact h.exec_local rfl ⟨fun hex => (hok.1 hex).symm.trans h0, hok.2 h0⟩
  case tryStxr =>
    split_ifs at hst with hgo
    · obtain rfl := Option.some.inj hst
      exact h.exec_acquire (hok.1 (Bool.and_eq_true_iff.mp hgo).1) hok.2 rfl (by simp [ArmCpu.Ok])
    · obtain rfl := Option.some.inj hst
      exact h.exec_local rfl (by simp [ArmCpu.Ok, hok.2])
  case tryCbz =>
    obtain rfl := Option.some.inj hst
    exact h.exec_local rfl trivial
  case stlr =>
    obtain rfl := Option.some.inj hst
    exact h.exec_release hok rfl trivial

theorem HeldBy.of_step {a : ArmAct ι β} (h : s.HeldBy o) (hst : s.step a = some t) :
    ∃ o', (emit s a t).foldlM LockEvent.next o = some o' ∧ t.HeldBy o' := by
  cases a with
  | spinLock i =>
    obtain ⟨-, hst⟩ := Option.ite_none_right_eq_some.mp hst
    obtain rfl := Option.some.inj hst
    exact ⟨o, rfl, h.set rfl trivial⟩
  | spinTrylock i =>
    obtain ⟨-, hst⟩ := Option.ite_none_right_eq_some.mp hst
    obtain rfl := Option.some.inj hst
    exact ⟨o, rfl, h.set rfl trivial⟩
  | spinUnlock i =>
    obtain ⟨⟨-, hholds⟩, hst⟩ := Option.ite_none_right_eq_some.mp hst
    obtain rfl := Option.some.inj hst
    exact ⟨o, rfl, h.set rfl hholds⟩
  | exec i chance => exact h.exec hst
  | access i b =>
    obtain ⟨⟨-, hholds⟩, hst⟩ := Option.ite_none_right_eq_some.mp hst
    obtain rfl := Option.some.inj hst
    obtain rfl := (h.holds i).mp hholds
    exact ⟨some i, by simp [emit, LockEvent.next], h⟩
  | disturb i lost =>
    obtain rfl := Option.some.inj hst
    exact ⟨o, rfl, h.set rfl ((h.ok i).disturb lost)⟩

end step

/-! Runs. -/

/-- `spin_lock` from its first instruction to its return. -/
def InSpinLock (pc : ArmPc) : Prop :=
  pc ∈ [ArmPc.sevl, .wfe, .ldaxr, .cbnz, .stxr, .cbnzStatus]

def InSpinTrylock (pc : ArmPc) : Prop :=
  pc ∈ [ArmPc.tryLdaxr, .tryCbnz, .tryStxr, .tryCbz]

/-- Whatever the next instruction is: with it `spin_lock` returns only to a CPU that holds the lock, and
`spin_trylock` returns 1 only to one that does. -/
structure ReturnsToHolder (s : ArmLock ι) : Prop where
  spinLock : ∀ i chance t, s.exec i chance = some t → InSpinLock (s.cpu i).pc → (t.cpu i).pc = .out →
    (t.cpu i).holds = true
  spinTrylock : ∀ i chance t, s.exec i chance = some t → InSpinTrylock (s.cpu i).pc →
    (t.cpu i).pc = .out → (t.cpu i).result = 1 → (t.cpu i).holds = true

/-- The instructions that a call returns with. -/
theorem exec_returns {chance : Bool} (hst : s.exec i chance = some t) (hout : (t.cpu i).pc = .out) :
    (s.cpu i).pc = .stlr ∨ (s.cpu i).pc = .tryCbnz ∧ (t.cpu i).result = 0 ∨
      (t.cpu i).holds = (s.cpu i).holds ∧ ((s.cpu i).pc = .cbnzStatus ∧ (s.cpu i).tmp = 0 ∨
        (s.cpu i).pc = .tryCbz ∧ ((t.cpu i).result = 1 → (s.cpu i).tmp = 0)) := by
  unfold ArmLock.exec at hst
  cases hpc : (s.cpu i).pc <;> simp only [hpc] at hst
  case out => cases hst
  case wfe =>
    obtain ⟨-, hst⟩ := Option.ite_none_right_eq_some.mp hst
    obtain rfl := Option.some.inj hst
    simp at hout
  case stxr =>
    split_ifs at hst
    · obtain rfl := Option.some.inj hst
      simp at hout
    · obtain rfl := Option.some.inj hst
      simp at hout
  case tryStxr =>
    split_ifs at hst
    · obtain rfl := Option.some.inj hst
      simp at hout
    · obtain rfl := Option.some.inj hst
      simp at hout
  case tryCbnz =>
    split_ifs at hst
    · obtain rfl := Option.some.inj hst
      simp
    · obtain rfl := Option.some.inj hst
      simp at hout
  case stlr => simp
  all_goals
    obtain rfl := Option.some.inj hst
    simp at hout ⊢
  case cbnz => split at hout <;> cases hout
  case cbnzStatus => exact hout

theorem HeldBy.returnsToHolder (h : s.HeldBy o) : s.ReturnsToHolder where
  spinLock i chance t hst hin hout := by
    have hok := h.ok i
    obtain hpc | ⟨hpc, -⟩ | ⟨hsame, ⟨hpc, h0⟩ | ⟨hpc, -⟩⟩ := exec_returns hst hout
    case inr.inr.inl =>
      simp only [ArmCpu.Ok, hpc] at hok
      exact hsame.trans (hok.mp h0)
    all_goals simp [InSpinLock, hpc] at hin
  spinTrylock i chance t hst hin hout hres := by
    have hok := h.ok i
    obtain hpc | ⟨-, hfailed⟩ | ⟨hsame, ⟨hpc, -⟩ | ⟨hpc, h0⟩⟩ := exec_returns hst hout
    · simp [InSpinTrylock, hpc] at hin
    · rw [hfailed] at hres
      cases hres
    · simp [InSpinTrylock, hpc] at hin
    · simp only [ArmCpu.Ok, hpc] at hok
      exact hsame.trans (hok.mp (h0 hres))

variable {as : List (ArmAct ι β)} {es : List (LockEvent ι β)}

theorem HeldBy.run (h : Emits step emit s as es t) (ho : s.HeldBy o) :
    ∃ o', es.foldlM LockEvent.next o = some o' ∧ t.HeldBy o' :=
  h.simulate (fun _ _ _ _ h hst => h.of_step hst) ho

/-- However the instructions of the CPUs interleave, the critical sections of a run lie one after the
other, only the CPU in the last one, if any, holds the lock, and the calls return to holders. -/
theorem sections_serial (h : Emits step emit s as es t) (hs : s.Init) :
    ∃ (o : Option ι) (done : List (ι × List β)) (bs : List β),
      es = done.flatMap LockEvent.whole ++ LockEvent.begun bs o ∧
      (t.lock = 0 ↔ o = none) ∧ (∀ i, (t.cpu i).holds = true ↔ o = some i) ∧ t.ReturnsToHolder := by
  obtain ⟨o, hes, hby⟩ := HeldBy.run h hs.heldBy
  obtain ⟨done, bs, hserial⟩ := LockEvent.serial hes
  exact ⟨o, done, bs, hserial, hby.lock, hby.holds, hby.returnsToHolder⟩

def idle : ArmLock Bool where
  lock := 0
  cpu _ := { pc := .out, tmp := 0, result := 0, exclusive := false, event := false, holds := false }

def contended : List (ArmAct Bool ℕ) :=
  [.spinLock false, .spinLock true] ++
    [false, false, false, true, true, true, false, true, false, false, true, true].map (.exec · false) ++
    [.access false 7]

theorem sections_serial_contended : ∃ t es, Emits step emit idle contended es t ∧
    ∃ (o : Option Bool) (done : List (Bool × List ℕ)) (bs : List ℕ),
      es = done.flatMap LockEvent.whole ++ LockEvent.begun bs o ∧
      (t.lock = 0 ↔ o = none) ∧ (∀ i, (t.cpu i).holds = true ↔ o = some i) ∧ t.ReturnsToHolder := by
  obtain ⟨t, ht⟩ := Option.isSome_iff_exists.mp (show (contended.foldlM step idle).isSome by decide)
  obtain ⟨es, hes⟩ := Emits.of_foldlM emit ht
  exact ⟨t, es, hes, sections_serial hes ⟨rfl, fun _ => rfl, fun _ => rfl⟩⟩

/-! A CPU that spins on a lock that has become free. -/

/-- Within `k` instructions of its own, none of them left to chance, CPU `i` has the lock. -/
def Takes (β : Type*) (i : ι) (k : ℕ) (s : ArmLock ι) : Prop :=
  ∃ n ≤ k, ∃ t, (List.replicate n (.exec i false : ArmAct ι β)).foldlM step s = some t ∧
    (t.cpu i).holds = true

theorem Takes.of_exec {k : ℕ} (hst : s.exec i false = some t) (h : t.Takes β i k) :
    s.Takes β i (k + 1) := by
  obtain ⟨n, hn, u, hu, hholds⟩ := h
  refine ⟨n + 1, Nat.succ_le_succ hn, u, ?_, hholds⟩
  rw [List.replicate_succ, List.foldlM_cons]
  exact (congrArg (· >>= _) hst).trans hu

theorem Takes.mono {k m : ℕ} (h : s.Takes β i k) (hle : k ≤ m) : s.Takes β i m := by
  obtain ⟨n, hn, hrest⟩ := h
  exact ⟨n, Nat.le_trans hn hle, hrest⟩

theorem takes_stxr (hpc : (s.cpu i).pc = .stxr) (hex : (s.cpu i).exclusive = true) : s.Takes β i 1 := by
  refine .of_exec (t := (s.store i 1).set i _) (by simp only [exec, hpc, hex]; rfl) ?_
  exact ⟨0, Nat.le_refl 0, _, rfl, by simp⟩

theorem takes_cbnz (hpc : (s.cpu i).pc = .cbnz) (hex : (s.cpu i).exclusive = true)
    (htmp : (s.cpu i).tmp = 0) : s.Takes β i 2 :=
  .of_exec (t := s.set i _) (by simp only [exec, hpc]; rfl) (takes_stxr (by simp [htmp]) (by simp [hex]))

theorem takes_ldaxr (hpc : (s.cpu i).pc = .ldaxr) (hlock : s.lock = 0) : s.Takes β i 3 :=
  .of_exec (t := s.set i _) (by simp only [exec, hpc]; rfl) (takes_cbnz (by simp) (by simp) (by simp [hlock]))

theorem takes_cbnzStatus (hpc : (s.cpu i).pc = .cbnzStatus) (htmp : (s.cpu i).tmp ≠ 0)
    (hlock : s.lock = 0) : s.Takes β i 4 :=
  .of_exec (t := s.set i _) (by simp only [exec, hpc]; rfl) (takes_ldaxr (by simp [htmp]) hlock)

/-- The monitor may have been lost since the load; then the lock is loaded again. -/
theorem takes_stxr_of_free (hpc : (s.cpu i).pc = .stxr) (hlock : s.lock = 0) : s.Takes β i 5 := by
  cases hex : (s.cpu i).exclusive
  · refine .of_exec (t := s.set i _) (by simp only [exec, hpc, hex]; rfl) ?_
    exact takes_cbnzStatus (by simp) (by simp) hlock
  · exact (takes_stxr hpc hex).mono (by decide)

theorem takes_wfe (hpc : (s.cpu i).pc = .wfe) (hev : (s.cpu i).event = true) (hlock : s.lock = 0) :
    s.Takes β i 4 :=
  .of_exec (t := s.set i _) (by simp only [exec, hpc, hev]; rfl) (takes_ldaxr (by simp) hlock)

theorem takes_sevl (hpc : (s.cpu i).pc = .sevl) (hlock : s.lock = 0) : s.Takes β i 5 :=
  .of_exec (t := s.set i _) (by simp only [exec, hpc]; rfl) (takes_wfe (by simp) (by simp) hlock)

/-- A CPU that found the lock taken and has lost its monitor since then has an event to go on with. -/
theorem takes_cbnz_of_free (hpc : (s.cpu i).pc = .cbnz) (hok : (s.cpu i).Ok s.lock) (hlock : s.lock = 0) :
    s.Takes β i 6 := by
  simp only [ArmCpu.Ok, hpc] at hok
  obtain ⟨hwake, htmp, -⟩ := hok
  by_cases h0 : (s.cpu i).tmp = 0
  · refine .of_exec (t := s.set i _) (by simp only [exec, hpc]; rfl) ?_
    exact takes_stxr_of_free (by simp [h0]) hlock
  · have hev : (s.cpu i).event = true := by
      by_contra hev
      exact h0 ((htmp (hwake (Bool.eq_false_iff.mpr hev))).trans hlock)
    refine Takes.mono (.of_exec (t := s.set i _) (by simp only [exec, hpc]; rfl) ?_) (Nat.le_succ 5)
    exact takes_wfe (by simp [h0]) (by simp [hev]) hlock

theorem HeldBy.takes (h : s.HeldBy o) (hlock : s.lock = 0) (hin : InSpinLock (s.cpu i).pc) :
    s.Takes β i 6 := by
  have hok := h.ok i
  simp only [InSpinLock, List.mem_cons, List.not_mem_nil, or_false] at hin
  rcases hin with hpc | hpc | hpc | hpc | hpc | hpc
  · exact (takes_sevl hpc hlock).mono (by decide)
  · refine (takes_wfe hpc ?_ hlock).mono (by decide)
    simp only [ArmCpu.Ok, hpc] at hok
    -- asleep without an event, the CPU would have marked a lock word that is taken
    by_contra hev
    exact (hok (Bool.eq_false_iff.mpr hev)).2 hlock
  · exact (takes_ldaxr hpc hlock).mono (by decide)
  · exact takes_cbnz_of_free hpc hok hlock
  · exact (takes_stxr_of_free hpc hlock).mono (by decide)
  · simp only [ArmCpu.Ok, hpc, h.free_of_lock hlock, Bool.false_eq_true, iff_false] at hok
    exact (takes_cbnzStatus hpc hok hlock).mono (by decide)

/-- No wake-up is lost: whatever the CPUs have done, one that is in `spin_lock` while the lock is free
takes it by itself, with no event still to come from elsewhere. -/
theorem spinLock_takes_free_lock (h : as.foldlM step s = some t) (hs : s.Init) (hlock : t.lock = 0)
    (hin : InSpinLock (t.cpu i).pc) :
    ∃ n ≤ 6, ∃ u, (List.replicate n (.exec i false : ArmAct ι β)).foldlM step t = some u ∧
      (u.cpu i).holds = true := by
  obtain ⟨es, hes⟩ := Emits.of_foldlM emit h
  obtain ⟨o, -, hby⟩ := HeldBy.run hes hs.heldBy
  exact hby.takes hlock hin

/-- The second CPU is asleep at `wfe` when the first gives the lock back. -/
def handover : List (ArmAct Bool ℕ) :=
  contended ++ List.replicate 5 (.exec true false) ++ [.spinUnlock false, .exec false false]

theorem spinLock_takes_free_lock_handover : ∃ t, handover.foldlM step idle = some t ∧
    (t.cpu true).pc = .wfe ∧ ∃ n ≤ 6, ∃ u,
      (List.replicate n (.exec true false : ArmAct Bool ℕ)).foldlM step t = some u ∧
      (u.cpu true).holds = true := by
  have hrun : ∃ t, handover.foldlM step idle = some t ∧ t.lock = 0 ∧ (t.cpu true).pc = .wfe := by
    refine ⟨(handover.foldlM step idle).get (by decide), (Option.some_get _).symm, by decide, by decide⟩
  obtain ⟨t, ht, hlock, hpc⟩ := hrun
  exact ⟨t, ht, hpc, spinLock_takes_free_lock ht ⟨rfl, fun _ => rfl, fun _ => rfl⟩ hlock
    (by simp [InSpinLock, hpc])⟩

end ArmLock

end GcAos.Sync
