import GcAos.Sched.Sched

/-! The run queue as a doubly linked list, over every run of the scheduler's operations. -/

namespace GcAos.Sched
open Lib

namespace Rq

variable {s : Rq} {q xs ys : List ℕ} {t x : ℕ} {f : TaskStruct → TaskStruct}

/-- The `next` pointers, with `head` as that of the null pointer. -/
def nx (s : Rq) (x : ℕ) : ℕ := if x = 0 then s.head else (s.tasks x).next

def pv (s : Rq) (x : ℕ) : ℕ := (s.tasks x).prev

/-- The run queue lists the tasks `q`, each once. -/
structure Lists (s : Rq) (q : List ℕ) : Prop where
  ring : Ring 0 s.nx s.pv q
  tail : (0 :: q).getLast? = some s.tail
  count : s.nrRunning = q.length

theorem tasks_modify_self : (s.modify t f).tasks t = f (s.tasks t) := Function.update_self _ _ _

theorem tasks_modify_of_ne (h : x ≠ t) : (s.modify t f).tasks x = s.tasks x :=
  Function.update_of_ne h _ _

theorem nx_modify_of_ne (h : x ≠ t) : (s.modify t f).nx x = s.nx x := by
  unfold nx
  rw [tasks_modify_of_ne h]
  rfl

theorem nx_modify (hn : (f (s.tasks t)).next = (s.tasks t).next) : (s.modify t f).nx = s.nx := by
  funext x
  by_cases hx : x = t
  · subst hx
    unfold nx
    rw [tasks_modify_self, hn]
    rfl
  · exact nx_modify_of_ne hx

theorem pv_modify_of_ne (h : x ≠ t) : (s.modify t f).pv x = s.pv x := by
  unfold pv
  rw [tasks_modify_of_ne h]

theorem pv_modify (hp : (f (s.tasks t)).prev = (s.tasks t).prev) : (s.modify t f).pv = s.pv := by
  funext x
  by_cases hx : x = t
  · subst hx
    unfold pv
    rw [tasks_modify_self, hp]
  · exact pv_modify_of_ne hx

theorem Lists.modify (h : s.Lists q) (hn : (f (s.tasks t)).next = (s.tasks t).next)
    (hp : (f (s.tasks t)).prev = (s.tasks t).prev) : (s.modify t f).Lists q :=
  ⟨by rw [nx_modify hn, pv_modify hp]; exact h.ring, h.tail, h.count⟩

theorem Lists.modify_of_notMem (h : s.Lists q) (ht₀ : t ≠ 0) (ht : t ∉ q) : (s.modify t f).Lists q := by
  refine ⟨h.ring.congr (fun x hx => nx_modify_of_ne ?_) (fun x hx => pv_modify_of_ne ?_), h.tail,
    h.count⟩
  · rintro rfl
    exact (List.mem_cons.mp hx).elim ht₀ ht
  · rintro rfl
    exact ht hx

theorem Lists.zero_notMem (h : s.Lists q) : 0 ∉ q := h.ring.nil_notMem

theorem Lists.nodup (h : s.Lists q) : q.Nodup := (List.nodup_cons.mp h.ring.nodup).2

theorem Lists.head_eq (h : s.Lists q) : s.head = q.headD 0 := by
  have hhead := h.ring.head_eq
  cases q with
  | nil => exact (Option.some.inj hhead).symm
  | cons t q => exact (Option.some.inj hhead).symm

theorem Lists.tail_eq_zero (h : s.Lists q) (hq : s.head = 0) : q = [] ∧ s.tail = 0 := by
  have hhead := h.head_eq
  cases q with
  | nil => exact ⟨rfl, (Option.some.inj h.tail).symm⟩
  | cons t q =>
    rw [hq] at hhead
    exact absurd (hhead ▸ List.mem_cons_self ..) h.zero_notMem

theorem Lists.tail_mem (h : s.Lists q) (hq : s.head ≠ 0) : s.tail ∈ q := by
  cases q with
  | nil => exact absurd h.head_eq hq
  | cons t q =>
    have hlast := h.tail
    rw [List.getLast?_cons_cons] at hlast
    exact List.mem_of_getLast? hlast

end Rq

def Rq.info (s : Rq) (x : ℕ) : TaskStruct := { s.tasks x with next := 0, prev := 0 }

structure Relinked (s s' : Rq) : Prop where
  current : s'.current = s.current
  idle : s'.idle = s.idle
  taskPoolIndex : s'.taskPoolIndex = s.taskPoolIndex
  info : s'.info = s.info

namespace Relinked

variable {s s' s'' : Rq}

theorem trans (h : Relinked s s') (h' : Relinked s' s'') : Relinked s s'' :=
  ⟨h'.current.trans h.current, h'.idle.trans h.idle, h'.taskPoolIndex.trans h.taskPoolIndex,
    h'.info.trans h.info⟩

theorem state (h : Relinked s s') (x : ℕ) : (s'.tasks x).state = (s.tasks x).state :=
  show (s'.info x).state = (s.info x).state from congrArg _ (congrFun h.info x)

theorem modify {t : ℕ} {f : TaskStruct → TaskStruct}
    (hf : { f (s.tasks t) with next := 0, prev := 0 } = s.info t) : Relinked s (s.modify t f) := by
  refine ⟨rfl, rfl, rfl, ?_⟩
  funext x
  unfold Rq.info
  by_cases hx : x = t
  · subst hx
    rw [Rq.tasks_modify_self]
    exact hf
  · rw [Rq.tasks_modify_of_ne hx]

end Relinked

theorem enqueueTask_relinked (s : Rq) (t : ℕ) :
    Relinked (s.modify t fun x => { x with state := .running }) (enqueueTask s t) := by
  unfold enqueueTask
  dsimp only
  split
  · have h := Relinked.modify
      (s := { s.modify t fun x => { x with state := .running } with head := t, tail := t })
      (t := t) (f := fun x => { x with next := 0, prev := 0 }) rfl
    exact ⟨h.current, h.idle, h.taskPoolIndex, h.info⟩
  · generalize s.modify t (fun x => { x with state := .running }) = s
    have h₁ := Relinked.modify (s := s) (t := t) (f := fun x => { x with prev := s.tail }) rfl
    generalize s.modify t (fun x => { x with prev := s.tail }) = s₁ at h₁ ⊢
    have h₂ := Relinked.modify (s := s₁) (t := t) (f := fun x => { x with next := 0 }) rfl
    generalize s₁.modify t (fun x => { x with next := 0 }) = s₂ at h₂ ⊢
    have h₃ := Relinked.modify (s := s₂) (t := s₂.tail) (f := fun x => { x with next := t }) rfl
    have h := (h₁.trans h₂).trans h₃
    exact ⟨h.current, h.idle, h.taskPoolIndex, h.info⟩

theorem setNext_relinked (s : Rq) (p n : ℕ) : Relinked s (s.setNext p n) := by
  unfold Rq.setNext
  split
  · exact .modify rfl
  · exact ⟨rfl, rfl, rfl, rfl⟩

theorem setPrev_relinked (s : Rq) (n p : ℕ) : Relinked s (s.setPrev n p) := by
  unfold Rq.setPrev
  split
  · exact .modify rfl
  · exact ⟨rfl, rfl, rfl, rfl⟩

theorem dequeueTask_relinked (s : Rq) (t : ℕ) : Relinked s (dequeueTask s t) := by
  unfold dequeueTask
  dsimp only
  have h₁ := setNext_relinked s (s.tasks t).prev (s.tasks t).next
  generalize s.setNext (s.tasks t).prev (s.tasks t).next = s₁ at h₁ ⊢
  have h₂ := setPrev_relinked s₁ (s₁.tasks t).next (s₁.tasks t).prev
  generalize s₁.setPrev (s₁.tasks t).next (s₁.tasks t).prev = s₂ at h₂ ⊢
  have h₃ := Relinked.modify (s := s₂) (t := t) (f := fun x => { x with next := 0, prev := 0 }) rfl
  have h := (h₁.trans h₂).trans h₃
  split
  · exact ⟨h.current, h.idle, h.taskPoolIndex, h.info⟩
  · exact h

theorem requeue_info {s : Rq} {p : ℕ} (hrun : (s.tasks p).state = .running) :
    (enqueueTask (dequeueTask s p) p).info = s.info := by
  rw [(enqueueTask_relinked _ p).info]
  funext x
  have hinfo := congrFun (dequeueTask_relinked s p).info x
  unfold Rq.info at hinfo ⊢
  obtain rfl | hne := eq_or_ne x p
  · rw [Rq.tasks_modify_self]
    calc _ = { ({ (dequeueTask s x).tasks x with next := 0, prev := 0 } : TaskStruct) with
              state := .running } := rfl
      _ = { ({ s.tasks x with next := 0, prev := 0 } : TaskStruct) with state := .running } := by rw [hinfo]
      _ = _ := by rw [← hrun]
  · rw [Rq.tasks_modify_of_ne hne]
    exact hinfo

/-- A switch leaves a task its state and its exit code. -/
theorem schedule_tasks (s : Rq) (x : ℕ) : ((schedule s).tasks x).state = (s.tasks x).state ∧
    ((schedule s).tasks x).exitCode = (s.tasks x).exitCode := by
  have hswitch (u : Rq) (p n : ℕ) (hu : u.info x = s.info x) :
      ((contextSwitch u p n).tasks x).state = (s.tasks x).state ∧
        ((contextSwitch u p n).tasks x).exitCode = (s.tasks x).exitCode := by
    have hsame : (u.tasks x).state = (s.tasks x).state ∧ (u.tasks x).exitCode = (s.tasks x).exitCode :=
      ⟨show (u.info x).state = (s.info x).state from congrArg _ hu,
        show (u.info x).exitCode = (s.info x).exitCode from congrArg _ hu⟩
    unfold contextSwitch
    obtain rfl | hne := eq_or_ne x n
    · rw [Rq.tasks_modify_self]
      exact hsame
    · rw [Rq.tasks_modify_of_ne hne]
      exact hsame
  unfold schedule
  dsimp only
  split
  · exact ⟨rfl, rfl⟩
  · refine hswitch _ _ _ ?_
    split
    · next hrun => exact congrFun (requeue_info hrun.1) x
    · rfl

section
variable {s : Rq} {q xs ys : List ℕ} {t : ℕ}

theorem enqueueTask_lists (h : s.Lists q) (ht : t ∉ 0 :: q) (hlen : q.length + 1 < 2 ^ 32) :
    (enqueueTask s t).Lists (q ++ [t]) := by
  obtain ⟨ht₀, htq⟩ : t ≠ 0 ∧ t ∉ q := by simpa using ht
  have hring : Ring 0 s.nx s.pv (q ++ []) := by simpa using h.ring
  have hmem : ∀ x ∈ q, x ≠ 0 ∧ x ≠ t := fun x hx =>
    ⟨fun hz => h.zero_notMem (hz ▸ hx), fun heq => htq (heq ▸ hx)⟩
  by_cases hempty : s.head = 0
  · obtain ⟨rfl, htail⟩ := h.tail_eq_zero hempty
    have hval : enqueueTask s t = { s with
        head := t, tail := t, nrRunning := (s.nrRunning + 1) % 2 ^ 32
        tasks := Function.update s.tasks t
          { s.tasks t with state := .running, next := 0, prev := 0 } } := by
      simp [enqueueTask, Rq.modify, hempty]
    rw [hval]
    refine ⟨hring.link ht h.tail rfl ?_ ?_ ?_ ?_, rfl, ?_⟩
    · simp [Rq.nx, ht₀]
    · simp [Rq.pv, htail]
    · simp [Rq.nx, htail]
    · simp
    · simp [h.count]
  · have htail := hmem s.tail (h.tail_mem hempty)
    have hval : enqueueTask s t = { s with
        tail := t, nrRunning := (s.nrRunning + 1) % 2 ^ 32
        tasks := Function.update (Function.update s.tasks t
          { s.tasks t with state := .running, prev := s.tail, next := 0 }) s.tail
          { s.tasks s.tail with next := t } } := by
      simp [enqueueTask, Rq.modify, hempty, htail.2]
    rw [hval]
    refine ⟨hring.link (by simpa using ht) h.tail rfl ?_ ?_ ?_ ?_, ?_, ?_⟩
    · simp [Rq.nx, ht₀, Function.update_of_ne htail.2.symm]
    · simp [Rq.pv, Function.update_of_ne htail.2.symm]
    · intro x hx
      by_cases hx₀ : x = 0
      · subst hx₀
        simp [Rq.nx, htail.1.symm]
      · have hxq : x ∈ q := by simpa [hx₀] using hx
        by_cases hxt : x = s.tail
        · subst hxt
          simp [Rq.nx, hx₀]
        · simp [Rq.nx, hx₀, hxt, Function.update_of_ne (hmem x hxq).2]
    · intro x hx
      have hxq : x ∈ q := by simpa using hx
      by_cases hxt : x = s.tail
      · subst hxt
        simp [Rq.pv, htail.1]
      · simp [Rq.pv, (hmem x hxq).1, Function.update_of_ne hxt, Function.update_of_ne (hmem x hxq).2]
    · show (0 :: q ++ [t]).getLast? = some t
      exact List.getLast?_concat
    · simp only [h.count, List.length_append, List.length_singleton]
      exact Nat.mod_eq_of_lt hlen

theorem nx_setNext (s : Rq) (p n x : ℕ) :
    (s.setNext p n).nx x = if x = p then n else s.nx x := by
  unfold Rq.setNext
  by_cases hp : p = 0
  · subst hp
    rw [if_neg (not_not.mpr rfl)]
    by_cases hx : x = 0
    · subst hx
      rfl
    · rw [if_neg hx, Rq.nx, Rq.nx, if_neg hx, if_neg hx]
  · rw [if_pos hp]
    by_cases hx : x = p
    · subst hx
      rw [if_pos rfl, Rq.nx, if_neg hp, Rq.tasks_modify_self]
    · rw [if_neg hx, Rq.nx_modify_of_ne hx]

theorem pv_setNext (s : Rq) (p n x : ℕ) : (s.setNext p n).pv x = s.pv x := by
  unfold Rq.setNext
  split
  · rw [Rq.pv_modify rfl]
  · rfl

theorem pv_setPrev {s : Rq} {n p x : ℕ} (hx₀ : x ≠ 0) :
    (s.setPrev n p).pv x = if x = n then p else s.pv x := by
  unfold Rq.setPrev
  by_cases hn : n = 0
  · subst hn
    rw [if_neg (not_not.mpr rfl), if_neg hx₀]
    rfl
  · rw [if_pos hn]
    by_cases hx : x = n
    · subst hx
      rw [if_pos rfl, Rq.pv, Rq.tasks_modify_self]
    · rw [if_neg hx, Rq.pv_modify_of_ne hx]

theorem nx_setPrev (s : Rq) (n p x : ℕ) : (s.setPrev n p).nx x = s.nx x := by
  unfold Rq.setPrev
  split
  · rw [Rq.nx_modify rfl]
  · rfl

theorem tail_setPrev (s : Rq) (n p : ℕ) : (s.setPrev n p).tail = if n = 0 then p else s.tail := by
  unfold Rq.setPrev
  by_cases hn : n = 0
  · rw [if_pos hn, if_neg (not_not.mpr hn)]
  · rw [if_neg hn, if_pos hn]
    rfl

theorem tasks_setNext_of_ne {s : Rq} {p n x : ℕ} (h : x ≠ p) : (s.setNext p n).tasks x = s.tasks x := by
  unfold Rq.setNext
  split
  · exact Rq.tasks_modify_of_ne h
  · rfl

theorem tasks_setPrev_of_ne {s : Rq} {n p x : ℕ} (h : x ≠ n) : (s.setPrev n p).tasks x = s.tasks x := by
  unfold Rq.setPrev
  split
  · exact Rq.tasks_modify_of_ne h
  · rfl

theorem dequeueTask_lists (h : s.Lists (xs ++ t :: ys)) : (dequeueTask s t).Lists (xs ++ ys) := by
  have ht₀ : t ≠ 0 := by
    rintro rfl
    exact h.zero_notMem (by simp)
  have hnd := h.ring.nodup
  have hp := h.ring.prev_eq
  have hn := h.ring.next_eq
  have hnx : s.nx t = (s.tasks t).next := if_neg ht₀
  have hpt : s.pv t ≠ t := by
    intro heq
    have hmem := List.mem_of_mem_getLast? hp
    rw [heq] at hmem
    grind
  have hnt : s.nx t ≠ t := by
    intro heq
    have hmem := List.mem_of_mem_head? hn
    rw [heq] at hmem
    grind
  -- the links around the task, then its own
  have hnx₁ : ((s.setNext (s.pv t) (s.nx t)).tasks t).next = s.nx t := by
    have h := nx_setNext s (s.pv t) (s.nx t) t
    rw [Rq.nx, if_neg ht₀, if_neg hpt.symm] at h
    exact h
  have hpv₁ : ((s.setNext (s.pv t) (s.nx t)).tasks t).prev = s.pv t := pv_setNext ..
  generalize hs₁ : s.setNext (s.pv t) (s.nx t) = s₁ at hnx₁ hpv₁
  generalize hs₂ : s₁.setPrev (s.nx t) (s.pv t) = s₂
  have hnr : s₂.nrRunning = s.nrRunning := by
    rw [← hs₂, ← hs₁, Rq.setPrev, Rq.setNext]
    split <;> split <;> rfl
  obtain ⟨s₃, hs₃⟩ : ∃ s₃, s₂.modify t (fun x => { x with next := 0, prev := 0 }) = s₃ := ⟨_, rfl⟩
  have hnr₃ : s₃.nrRunning = s.nrRunning := by
    rw [← hs₃]
    exact hnr
  have hval : dequeueTask s t = { s₃ with nrRunning := s.nrRunning - 1 } := by
    have hpos : 0 < s₃.nrRunning := by
      rw [hnr₃, h.count]
      simp
    unfold dequeueTask
    rw [← hnx]
    dsimp only
    rw [show (s.tasks t).prev = s.pv t from rfl, hs₁, hnx₁, hpv₁, hs₂, hs₃, if_pos hpos, hnr₃]
  have hside : ∀ x ∈ xs ++ ys, x ≠ t ∧ x ≠ 0 := by grind
  rw [hval]
  refine ⟨h.ring.unlink ?_ ?_, ?_, ?_⟩
  · intro x hx
    have hxt : x ≠ t := by grind
    show s₃.nx x = _
    rw [← hs₃, Rq.nx_modify_of_ne hxt, ← hs₂, nx_setPrev, ← hs₁, nx_setNext]
  · intro y hy
    show s₃.pv y = _
    rw [← hs₃, Rq.pv_modify_of_ne (hside y hy).1, ← hs₂, pv_setPrev (hside y hy).2, ← hs₁, pv_setNext]
  · have htail : s₃.tail = s₂.tail := by
      rw [← hs₃]
      rfl
    show (0 :: (xs ++ ys)).getLast? = some s₃.tail
    rw [htail, ← hs₂, tail_setPrev]
    have htail₁ : s₁.tail = s.tail := by
      rw [← hs₁, Rq.setNext]
      split <;> rfl
    cases ys with
    | nil =>
      have hend : s.nx t = 0 := (Option.some.inj hn).symm
      rw [if_pos hend, List.append_nil]
      exact hp
    | cons y ys =>
      have hnext : s.nx t = y := (Option.some.inj hn).symm
      have hy₀ : s.nx t ≠ 0 := hnext ▸ (hside y (by simp)).2
      rw [if_neg hy₀, htail₁, ← h.tail]
      simp [List.getLast?_cons, List.getLast?_append]
  · show s.nrRunning - 1 = _
    rw [h.count]
    simp

end

/-! ## Tasks outside the queue -/

theorem enqueueTask_apart {s : Rq} {q : List ℕ} {t x : ℕ} (h : s.Lists q) (hx : x ∉ q) (hxt : x ≠ t) :
    (enqueueTask s t).tasks x = s.tasks x := by
  unfold enqueueTask
  by_cases hhead : s.head = 0
  · simp only [Rq.modify, hhead, if_pos, Function.update_of_ne hxt]
  · have htail : x ≠ s.tail := fun heq => hx (heq ▸ h.tail_mem hhead)
    simp only [Rq.modify, hhead, if_neg, not_false_eq_true, Function.update_of_ne hxt,
      Function.update_of_ne htail]

theorem dequeueTask_tasks_of_ne {s : Rq} {t x : ℕ} (hp : (s.tasks t).prev ≠ t) (hx : x ≠ t)
    (hxp : x ≠ (s.tasks t).prev) (hxn : x ≠ (s.tasks t).next) :
    (dequeueTask s t).tasks x = s.tasks x := by
  have hsame : (s.setNext (s.tasks t).prev (s.tasks t).next).tasks t = s.tasks t :=
    tasks_setNext_of_ne hp.symm
  unfold dequeueTask
  dsimp only
  rw [hsame, apply_ite Rq.tasks, ite_self, Rq.tasks_modify_of_ne hx, tasks_setPrev_of_ne hxn,
    tasks_setNext_of_ne hxp]

theorem dequeueTask_apart {s : Rq} {xs ys : List ℕ} {t x : ℕ} (h : s.Lists (xs ++ t :: ys))
    (hx₀ : x ≠ 0) (hx : x ∉ xs ++ t :: ys) : (dequeueTask s t).tasks x = s.tasks x := by
  have hp := List.mem_of_mem_getLast? h.ring.prev_eq
  have hn := List.mem_of_mem_head? h.ring.next_eq
  have ht₀ : t ≠ 0 := by
    rintro rfl
    exact h.zero_notMem (by simp)
  have hnd := h.ring.nodup
  have hnx : s.nx t = (s.tasks t).next := if_neg ht₀
  rw [hnx] at hn
  have hpv : s.pv t = (s.tasks t).prev := rfl
  rw [hpv] at hp
  apply dequeueTask_tasks_of_ne <;> grind

/-! ## The run queue and the states of the tasks -/

namespace Rq

def IsTask (s : Rq) (t : ℕ) : Prop := t = initTask ∨ ∃ i < s.taskPoolIndex, t = poolTask i

def Runnable (s : Rq) (t : ℕ) : Prop :=
  s.IsTask t ∧ t ≠ s.idle ∧ (s.tasks t).state = .running

/-- The run queue is a doubly linked list of the runnable tasks, and `nr_running` its length. -/
def QueuesRunnable (s : Rq) : Prop := ∃ q, s.Lists q ∧ ∀ t, t ∈ q ↔ s.Runnable t

structure Sane (s : Rq) : Prop where
  idle : s.idle = initTask
  current : s.IsTask s.current
  pid : (s.tasks initTask).pid = 0
  pool : s.taskPoolIndex ≤ maxTasks
  unlinked : (s.tasks initTask).next = 0 ∧ (s.tasks initTask).prev = 0

/-- The queue is in order but for the task `t`, which is about to be put into it. -/
structure Awaits (s : Rq) (q : List ℕ) (t : ℕ) : Prop where
  sane : s.Sane
  lists : s.Lists q
  task : s.IsTask t
  ne_idle : t ≠ initTask
  notMem : t ∉ q
  others : ∀ x, x ≠ t → (x ∈ q ↔ s.Runnable x)

structure Steady (s : Rq) (q : List ℕ) : Prop where
  sane : s.Sane
  lists : s.Lists q
  mem : ∀ t, t ∈ q ↔ s.Runnable t

variable {s s' : Rq} {q : List ℕ} {t : ℕ} {f : TaskStruct → TaskStruct}

theorem IsTask.ne_zero (h : s.IsTask t) : t ≠ 0 := by
  rcases h with rfl | ⟨i, -, rfl⟩
  · exact Nat.one_ne_zero
  · exact Nat.succ_ne_zero _

theorem Awaits.length_lt (h : s.Awaits q t) : q.length + 1 < 2 ^ 32 := by
  have hsub : q ⊆ (List.range s.taskPoolIndex).map poolTask := by
    intro x hx
    have hne : x ≠ t := fun heq => h.notMem (heq ▸ hx)
    obtain ⟨hx₁ | ⟨i, hi, rfl⟩, hidle, -⟩ := (h.others x hne).mp hx
    · exact absurd (hx₁.trans h.sane.idle.symm) hidle
    · exact List.mem_map.mpr ⟨i, List.mem_range.mpr hi, rfl⟩
  have hle := (List.subperm_of_subset h.lists.nodup hsub).length_le
  rw [List.length_map, List.length_range] at hle
  have hmax : s.taskPoolIndex ≤ 256 := h.sane.pool
  omega

theorem Steady.awaits (h : s.Steady q) (ht : s.IsTask t) (hne : t ≠ initTask) (hq : t ∉ q) :
    s.Awaits q t :=
  ⟨h.sane, h.lists, ht, hne, hq, fun x _ => h.mem x⟩

theorem Sane.modify_of_ne (h : s.Sane) (hne : t ≠ initTask) : (s.modify t f).Sane := by
  have hinit : (s.modify t f).tasks initTask = s.tasks initTask := tasks_modify_of_ne hne.symm
  refine ⟨h.idle, h.current, by rw [hinit]; exact h.pid, h.pool, ?_⟩
  rw [hinit]
  exact h.unlinked

theorem runnable_modify_of_ne {x : ℕ} (hx : x ≠ t) : (s.modify t f).Runnable x ↔ s.Runnable x := by
  show s.IsTask x ∧ x ≠ s.idle ∧ ((s.modify t f).tasks x).state = .running ↔ _
  rw [tasks_modify_of_ne hx]
  rfl

theorem Awaits.modify (h : s.Awaits q t) (hn : (f (s.tasks t)).next = (s.tasks t).next)
    (hp : (f (s.tasks t)).prev = (s.tasks t).prev) : (s.modify t f).Awaits q t where
  sane := h.sane.modify_of_ne h.ne_idle
  lists := h.lists.modify hn hp
  task := h.task
  ne_idle := h.ne_idle
  notMem := h.notMem
  others x hx := by rw [h.others x hx, runnable_modify_of_ne hx]

theorem Steady.modify (h : s.Steady q) (hn : (f (s.tasks t)).next = (s.tasks t).next)
    (hp : (f (s.tasks t)).prev = (s.tasks t).prev)
    (hs : (f (s.tasks t)).state = (s.tasks t).state ∨ t = initTask)
    (hpid : (f (s.tasks t)).pid = (s.tasks t).pid) : (s.modify t f).Steady q := by
  have hfield (g : TaskStruct → ℕ) (hg : g (f (s.tasks t)) = g (s.tasks t)) (x : ℕ) :
      g ((s.modify t f).tasks x) = g (s.tasks x) := by
    by_cases hx : x = t
    · subst hx
      rw [tasks_modify_self, hg]
    · rw [tasks_modify_of_ne hx]
  have hpid' : ((s.modify t f).tasks initTask).pid = (s.tasks initTask).pid := by
    by_cases hx : initTask = t
    · subst hx
      rw [tasks_modify_self, hpid]
    · rw [tasks_modify_of_ne hx]
  refine ⟨⟨h.sane.idle, h.sane.current, hpid'.trans h.sane.pid, h.sane.pool, ?_⟩,
    h.lists.modify hn hp, fun x => ?_⟩
  · exact ⟨(hfield (·.next) hn _).trans h.sane.unlinked.1,
      (hfield (·.prev) hp _).trans h.sane.unlinked.2⟩
  · rw [h.mem x]
    show s.Runnable x ↔ s.IsTask x ∧ x ≠ s.idle ∧ ((s.modify t f).tasks x).state = .running
    by_cases hx : x = t
    · subst hx
      rw [tasks_modify_self]
      rcases hs with hs | hs
      · rw [hs]
        rfl
      · have hidle : x = s.idle := hs.trans h.sane.idle.symm
        exact ⟨fun hr => absurd hidle hr.2.1, fun hr => absurd hidle hr.2.1⟩
    · rw [tasks_modify_of_ne hx]
      rfl

theorem Sane.relinked (h : s.Sane) (hr : Relinked s s') (hinit : s'.tasks initTask = s.tasks initTask) :
    s'.Sane where
  idle := hr.idle.trans h.idle
  current := by
    show s'.current = initTask ∨ ∃ i < s'.taskPoolIndex, s'.current = poolTask i
    rw [hr.current, hr.taskPoolIndex]
    exact h.current
  pid := by rw [hinit]; exact h.pid
  pool := by rw [hr.taskPoolIndex]; exact h.pool
  unlinked := by rw [hinit]; exact h.unlinked

theorem runnable_relinked (hr : Relinked s s') (x : ℕ) : s'.Runnable x ↔ s.Runnable x := by
  unfold Runnable IsTask
  rw [hr.idle, hr.taskPoolIndex, hr.state]

theorem Awaits.initTask_notMem (h : s.Awaits q t) : initTask ∉ q := by
  intro hmem
  exact ((h.others _ h.ne_idle.symm).mp hmem).2.1 h.sane.idle.symm

theorem Awaits.enqueue (h : s.Awaits q t) : (enqueueTask s t).Steady (q ++ [t]) := by
  have hr := enqueueTask_relinked s t
  have hw := h.modify (f := fun x => { x with state := .running }) rfl rfl
  have hinit : (enqueueTask s t).tasks initTask =
      (s.modify t fun x => { x with state := .running }).tasks initTask := by
    rw [enqueueTask_apart h.lists h.initTask_notMem h.ne_idle.symm,
      tasks_modify_of_ne h.ne_idle.symm]
  have ht : t ∉ 0 :: q := by
    simp only [List.mem_cons, not_or]
    exact ⟨h.task.ne_zero, h.notMem⟩
  refine ⟨hw.sane.relinked hr hinit, enqueueTask_lists h.lists ht h.length_lt, fun x => ?_⟩
  rw [runnable_relinked hr, List.mem_append, List.mem_singleton]
  by_cases hx : x = t
  · subst hx
    refine ⟨fun _ => ⟨h.task, ?_, ?_⟩, fun _ => .inr rfl⟩
    · show x ≠ s.idle
      rw [h.sane.idle]
      exact h.ne_idle
    · rw [tasks_modify_self]
  · rw [← hw.others x hx]
    simp [hx]

theorem awaits_dequeue {xs ys : List ℕ} (hsane : s.Sane) (hl : s.Lists (xs ++ t :: ys))
    (ht : s.IsTask t) (hne : t ≠ initTask)
    (hothers : ∀ x, x ≠ t → (x ∈ xs ++ t :: ys ↔ s.Runnable x)) :
    (dequeueTask s t).Awaits (xs ++ ys) t := by
  have hr := dequeueTask_relinked s t
  have hnd := hl.nodup
  have hout : initTask ∉ xs ++ t :: ys := by
    intro hmem
    exact ((hothers _ hne.symm).mp hmem).2.1 hsane.idle.symm
  refine ⟨hsane.relinked hr (dequeueTask_apart hl Nat.one_ne_zero hout), dequeueTask_lists hl, ?_,
    hne, by grind, fun x hx => ?_⟩
  · unfold IsTask
    rw [hr.taskPoolIndex]
    exact ht
  · rw [runnable_relinked hr, ← hothers x hx]
    simp [hx]

theorem Steady.dequeue {xs ys : List ℕ} (h : s.Steady (xs ++ t :: ys)) :
    (dequeueTask s t).Awaits (xs ++ ys) t := by
  have ht := (h.mem t).mp (by simp)
  exact awaits_dequeue h.sane h.lists ht.1 (h.sane.idle ▸ ht.2.1) fun x _ => h.mem x

theorem Steady.initTask_or_mem_pickNextTask (h : s.Steady q) :
    pickNextTask s = initTask ∨ pickNextTask s ∈ q := by
  unfold pickNextTask
  split
  · exact .inl h.sane.idle
  · next hhead =>
    refine .inr ?_
    have heq := h.lists.head_eq
    cases q with
    | nil => exact absurd heq hhead
    | cons t q =>
      rw [heq]
      exact List.mem_cons_self ..

theorem Steady.switch {prev next : ℕ} (h : s.Steady q) (hnext : s.IsTask next) :
    (contextSwitch { s with current := next } prev next).Steady q := by
  have hset : Rq.Steady { s with current := next } q :=
    ⟨⟨h.sane.idle, hnext, h.sane.pid, h.sane.pool, h.sane.unlinked⟩,
      ⟨h.lists.ring, h.lists.tail, h.lists.count⟩, h.mem⟩
  exact hset.modify rfl rfl (.inl rfl) rfl

theorem Steady.isTask (h : s.Steady q) (ht : t = initTask ∨ t ∈ q) : s.IsTask t := by
  rcases ht with ht | ht
  · exact .inl ht
  · exact ((h.mem t).mp ht).1

theorem Steady.schedule (h : s.Steady q) :
    ∃ q', (schedule s).Steady q' ∧
      ((Sched.schedule s).current = initTask ∨ (Sched.schedule s).current ∈ q') := by
  have hpick := h.initTask_or_mem_pickNextTask
  have hnext := h.isTask hpick
  unfold Sched.schedule
  dsimp only
  split
  · next heq => exact ⟨q, h, heq ▸ hpick⟩
  · split
    · next hrun =>
      have hprev : s.current ∈ q := (h.mem _).mpr ⟨h.sane.current, hrun.2, hrun.1⟩
      obtain ⟨xs, ys, rfl⟩ := List.append_of_mem hprev
      have hmoved := h.dequeue.enqueue
      have hin : pickNextTask s = initTask ∨ pickNextTask s ∈ xs ++ ys ++ [s.current] := by
        refine hpick.imp_right fun hmem => ?_
        simp only [List.mem_append, List.mem_cons, List.not_mem_nil, or_false] at hmem ⊢
        tauto
      exact ⟨_, hmoved.switch (hmoved.isTask hin), hin⟩
    · exact ⟨q, h.switch hnext, hpick⟩

end Rq

/-! ## Runs -/

inductive SchedCall
  -- the stack addresses are what `alloc_stack` returns
  | createTask (flags stack : ℕ)
  | createThread (stack cloneFlags allocated : ℕ)
  | schedule
  | wakeUpProcess (task : ℕ)
  | schedKillTask (pid : ℤ)
  | exitTask (code : ℤ)
  | sleepOn (state : TaskState)
  deriving DecidableEq

namespace Rq

def call (s : Rq) : SchedCall → Rq
  | .createTask flags stack => (createTask s flags stack).2
  | .createThread stack cloneFlags allocated => (createThread s stack cloneFlags allocated).2
  | .schedule => Sched.schedule s
  | .wakeUpProcess task => (wakeUpProcess s task).2
  | .schedKillTask pid => (schedKillTask s pid).2
  | .exitTask code => exitTask s code
  | .sleepOn state => sleepOn s state

/-- Calls as the kernel can make them: a pointer to a task is null or that of a task, and a task
sleeps interruptibly or not. -/
def Sensible (s : Rq) : SchedCall → Prop
  | .wakeUpProcess task => task = 0 ∨ s.IsTask task
  | .sleepOn state => state = .interruptible ∨ state = .uninterruptible
  | _ => True

/-- The calls that keep the run queue: no task is left half made, the idle task is not put into the
queue nor taken out of it, and no other task goes to sleep. -/
def Keeps (s : Rq) : SchedCall → Prop
  | .createTask _ stack => stack ≠ 0 ∨ maxTasks ≤ s.taskPoolIndex
  | .createThread stack _ allocated => stack ≠ 0 ∨ allocated ≠ 0 ∨ maxTasks ≤ s.taskPoolIndex
  | .wakeUpProcess task => task = s.idle → (s.tasks task).state = .running
  | .exitTask _ => s.current = s.idle → s.head = 0
  | .sleepOn _ => s.current = s.idle
  | .schedule | .schedKillTask _ => True

def Orderly (s : Rq) : Prop := ∃ q, s.Steady q ∧ (s.current = initTask ∨ s.current ∈ q)

variable {s : Rq} {q : List ℕ} {t : ℕ}

theorem Orderly.queuesRunnable (h : s.Orderly) : s.QueuesRunnable := by
  obtain ⟨q, hq, -⟩ := h
  exact ⟨q, hq.lists, hq.mem⟩

theorem Steady.orderly (h : s.Steady q) (hc : s.current = initTask ∨ s.current ∈ q) : s.Orderly :=
  ⟨q, h, hc⟩

theorem Awaits.orderly_enqueue (h : s.Awaits q t) (hc : s.current = initTask ∨ s.current ∈ q) :
    (enqueueTask s t).Orderly := by
  refine h.enqueue.orderly ?_
  rw [(enqueueTask_relinked s t).current]
  exact hc.imp_right (List.mem_append_left _)

theorem Steady.allocTask (h : s.Steady q) (hroom : s.taskPoolIndex < maxTasks) :
    ∃ s', Sched.allocTask s = (poolTask s.taskPoolIndex, s') ∧
      s'.Awaits q (poolTask s.taskPoolIndex) ∧ s'.current = s.current := by
  generalize hn : poolTask s.taskPoolIndex = n
  have hne : n ≠ initTask := by
    rw [← hn, poolTask, initTask]
    omega
  have hn₀ : n ≠ 0 := hn ▸ Nat.succ_ne_zero _
  have hold : ¬s.IsTask n := by
    rintro (heq | ⟨i, hi, heq⟩)
    · exact hne heq
    · rw [← hn, poolTask, poolTask] at heq
      omega
  have hq : n ∉ q := fun hmem => hold ((h.mem n).mp hmem).1
  have htask (x : ℕ) (hx : x ≠ n) :
      (x = initTask ∨ ∃ i < s.taskPoolIndex + 1, x = poolTask i) ↔ s.IsTask x := by
    refine or_congr_right ⟨?_, ?_⟩
    · rintro ⟨i, hi, rfl⟩
      refine ⟨i, Nat.lt_of_le_of_ne (Nat.lt_succ_iff.mp hi) ?_, rfl⟩
      rintro rfl
      exact hx hn
    · rintro ⟨i, hi, rfl⟩
      exact ⟨i, hi.trans (Nat.lt_succ_self _), rfl⟩
  have hinit : (s.modify n fun _ => {}).tasks initTask = s.tasks initTask :=
    tasks_modify_of_ne hne.symm
  have hlists := h.lists.modify_of_notMem (f := fun _ => {}) hn₀ hq
  refine ⟨{ s.modify n (fun _ => {}) with taskPoolIndex := s.taskPoolIndex + 1 }, ?_, ?_, rfl⟩
  · rw [Sched.allocTask, if_neg (not_le.mpr hroom), hn]
    rfl
  · refine ⟨⟨h.sane.idle, ?_, by rw [hinit]; exact h.sane.pid, hroom, by rw [hinit]; exact h.sane.unlinked⟩,
      ⟨hlists.ring, hlists.tail, hlists.count⟩, ?_, hne, hq, ?_⟩
    · refine (htask s.current ?_).mpr h.sane.current
      intro heq
      exact hold (heq ▸ h.sane.current)
    · exact .inr ⟨s.taskPoolIndex, Nat.lt_succ_self _, hn.symm⟩
    · intro x hx
      rw [h.mem x, Runnable, ← htask x hx]
      show _ ↔ _ ∧ x ≠ s.idle ∧ ((s.modify n fun _ => {}).tasks x).state = .running
      rw [tasks_modify_of_ne hx]
      rfl

theorem Awaits.setCounters (h : s.Awaits q t) (pid : ℤ) (users : ℕ → ℤ) :
    Awaits { s with nextPid := pid, mmUsers := users } q t :=
  ⟨⟨h.sane.idle, h.sane.current, h.sane.pid, h.sane.pool, h.sane.unlinked⟩,
    ⟨h.lists.ring, h.lists.tail, h.lists.count⟩, h.task, h.ne_idle, h.notMem, h.others⟩

theorem Orderly.createTask {flags stack : ℕ} (h : s.Orderly) (hk : s.Keeps (.createTask flags stack)) :
    (s.call (.createTask flags stack)).Orderly := by
  obtain ⟨q, hq, hc⟩ := h
  by_cases hroom : s.taskPoolIndex < maxTasks
  · obtain ⟨s₁, halloc, hwait, hcur⟩ := hq.allocTask hroom
    have hstack : stack ≠ 0 := hk.resolve_right (not_le.mpr hroom)
    simp only [call, Sched.createTask, halloc, if_neg hwait.task.ne_zero, if_neg hstack]
    rw [← hcur] at hc
    exact Awaits.orderly_enqueue (Awaits.setCounters (hwait.modify rfl rfl) _ s₁.mmUsers) hc
  · have halloc : Sched.allocTask s = (0, s) := if_pos (not_lt.mp hroom)
    simp only [call, Sched.createTask, halloc, if_pos]
    exact hq.orderly hc

theorem Orderly.createThread {stack cloneFlags allocated : ℕ} (h : s.Orderly)
    (hk : s.Keeps (.createThread stack cloneFlags allocated)) :
    (s.call (.createThread stack cloneFlags allocated)).Orderly := by
  obtain ⟨q, hq, hc⟩ := h
  by_cases hroom : s.taskPoolIndex < maxTasks
  · obtain ⟨s₁, halloc, hwait, hcur⟩ := hq.allocTask hroom
    rw [← hcur] at hc
    simp only [call, Sched.createThread, halloc, if_neg hwait.task.ne_zero]
    generalize hs₂ : (if cloneFlags &&& cloneVm ≠ 0 ∧ (s₁.tasks s.current).mm ≠ 0 then _ else _ : Rq) = s₂
    have hwait₂ : s₂.Awaits q (poolTask s.taskPoolIndex) ∧ s₂.current = s₁.current := by
      rw [← hs₂]
      split
      · exact ⟨Awaits.setCounters (hwait.modify rfl rfl) _ _, rfl⟩
      · exact ⟨Awaits.setCounters (hwait.modify rfl rfl) _ s₁.mmUsers, rfl⟩
    obtain ⟨hwait₂, hcur₂⟩ := hwait₂
    rw [← hcur₂] at hc
    split
    · exact Awaits.orderly_enqueue (hwait₂.modify rfl rfl) hc
    · next hstack =>
      have hallocated : allocated ≠ 0 :=
        (hk.resolve_left hstack).resolve_right (not_le.mpr hroom)
      rw [if_neg hallocated]
      exact Awaits.orderly_enqueue ((hwait₂.modify rfl rfl).modify rfl rfl) hc
  · have halloc : Sched.allocTask s = (0, s) := if_pos (not_lt.mp hroom)
    simp only [call, Sched.createThread, halloc, if_pos]
    exact hq.orderly hc

theorem Orderly.wakeUpProcess {task : ℕ} (h : s.Orderly) (hs : s.Sensible (.wakeUpProcess task))
    (hk : s.Keeps (.wakeUpProcess task)) : (s.call (.wakeUpProcess task)).Orderly := by
  obtain ⟨q, hq, hc⟩ := h
  simp only [call, Sched.wakeUpProcess]
  split
  · exact hq.orderly hc
  · next hne =>
    split
    · exact hq.orderly hc
    · next hsleep =>
      have htask := hs.resolve_left hne
      have hidle : task ≠ initTask := fun heq => hsleep (hk (heq.trans hq.sane.idle.symm))
      have hout : task ∉ q := fun hmem => hsleep ((hq.mem task).mp hmem).2.2
      exact Awaits.orderly_enqueue ((hq.awaits htask hidle hout).modify rfl rfl) hc

theorem getTaskByPid_isTask (s : Rq) (pid : ℤ) : getTaskByPid s pid = 0 ∨ s.IsTask (getTaskByPid s pid) := by
  unfold getTaskByPid
  split
  · exact .inr (.inl rfl)
  · dsimp only
    split
    · next i hi =>
      have hmem := List.mem_of_find?_eq_some hi
      exact .inr (.inr ⟨i, List.mem_range.mp hmem, rfl⟩)
    · exact .inl rfl

theorem Orderly.schedKillTask {pid : ℤ} (h : s.Orderly) : (s.call (.schedKillTask pid)).Orderly := by
  obtain ⟨q, hq, hc⟩ := h
  simp only [call, Sched.schedKillTask]
  have hfound := getTaskByPid_isTask s pid
  generalize getTaskByPid s pid = task at hfound
  split
  · exact hq.orderly hc
  · next hne =>
    split
    · exact hq.orderly hc
    · next hmay =>
      have hidle : task ≠ initTask := by
        rintro rfl
        exact hmay (.inl hq.sane.pid)
      have hmark := hq.modify (t := task) (f := fun t => { t with
        flags := t.flags ||| pfExiting
        pendingSignals := t.pendingSignals ||| 2 ^ 9 }) rfl rfl (.inl rfl) rfl
      split
      · next hsleep =>
        have hout : task ∉ q := by
          intro hmem
          have hrun := ((hmark.mem task).mp hmem).2.2
          rw [hrun] at hsleep
          simp at hsleep
        have htask := hfound.resolve_left hne
        exact Awaits.orderly_enqueue ((hmark.awaits htask hidle hout).modify rfl rfl) hc
      · exact hmark.orderly hc

theorem Steady.dequeue_idle (h : s.Steady []) : (dequeueTask s initTask).Steady [] := by
  obtain ⟨hn, hp⟩ := h.sane.unlinked
  have hhead : s.head = 0 := h.lists.head_eq
  have htail := (h.lists.tail_eq_zero hhead).2
  have hcount : s.nrRunning = 0 := h.lists.count
  have hval : dequeueTask s initTask = s.modify initTask fun t => { t with next := 0, prev := 0 } := by
    simp [dequeueTask, Rq.setNext, Rq.setPrev, Rq.modify, hn, hp, hhead, htail, hcount]
  rw [hval]
  exact h.modify hn.symm hp.symm (.inl rfl) rfl

theorem Steady.orderly_schedule (h : s.Steady q) : (Sched.schedule s).Orderly := h.schedule

theorem Awaits.steady (h : s.Awaits q t) (hs : (s.tasks t).state ≠ .running) : s.Steady q := by
  refine ⟨h.sane, h.lists, fun x => ?_⟩
  by_cases hx : x = t
  · subst hx
    exact ⟨fun hmem => absurd hmem h.notMem, fun hr => absurd hr.2.2 hs⟩
  · exact h.others x hx

theorem Orderly.exitTask {code : ℤ} (h : s.Orderly) (hk : s.Keeps (.exitTask code)) :
    (s.call (.exitTask code)).Orderly := by
  obtain ⟨q, hq, hc⟩ := h
  simp only [call, Sched.exitTask]
  rcases hc with hidle | hmem
  · -- the idle task: nothing is queued
    obtain ⟨rfl, -⟩ := hq.lists.tail_eq_zero (hk (hidle.trans hq.sane.idle.symm))
    rw [hidle]
    exact (hq.modify rfl rfl (.inr rfl) rfl).dequeue_idle.orderly_schedule
  · obtain ⟨xs, ys, rfl⟩ := List.append_of_mem hmem
    have hrun := (hq.mem _).mp hmem
    have hne : s.current ≠ initTask := hq.sane.idle ▸ hrun.2.1
    have hwait := awaits_dequeue (hq.sane.modify_of_ne (f := fun t =>
      { t with exitCode := code, state := .zombie, flags := t.flags ||| pfExiting }) hne)
      (hq.lists.modify rfl rfl) hrun.1 hne
      (fun x hx => by rw [hq.mem x, runnable_modify_of_ne hx])
    refine (hwait.steady ?_).orderly_schedule
    rw [(dequeueTask_relinked _ _).state, tasks_modify_self]
    exact TaskState.noConfusion

theorem Orderly.sleepOn {state : TaskState} (h : s.Orderly) (hk : s.Keeps (.sleepOn state)) :
    (s.call (.sleepOn state)).Orderly := by
  obtain ⟨q, hq, -⟩ := h
  have hidle : s.current = initTask := Eq.trans hk hq.sane.idle
  exact (hq.modify rfl rfl (.inr hidle) rfl).orderly_schedule

theorem Orderly.call {c : SchedCall} (h : s.Orderly) (hs : s.Sensible c) (hk : s.Keeps c) :
    (s.call c).Orderly := by
  cases c with
  | createTask flags stack => exact h.createTask hk
  | createThread stack cloneFlags allocated => exact h.createThread hk
  | schedule =>
    obtain ⟨q, hq, -⟩ := h
    exact hq.orderly_schedule
  | wakeUpProcess task => exact h.wakeUpProcess hs hk
  | schedKillTask pid => exact h.schedKillTask
  | exitTask code => exact h.exitTask hk
  | sleepOn state => exact h.sleepOn hk

theorem orderly_schedInit : (schedInit static).Orderly := by
  refine ⟨[], ⟨⟨rfl, .inl rfl, rfl, Nat.zero_le _, rfl, rfl⟩, ⟨.empty rfl, rfl, rfl⟩, fun t => ?_⟩,
    .inl rfl⟩
  refine ⟨fun hmem => absurd hmem (List.not_mem_nil), ?_⟩
  rintro ⟨rfl | ⟨i, hi, -⟩, hidle, -⟩
  · exact absurd rfl hidle
  · exact absurd hi (Nat.not_lt_zero i)

/-- Along every run of such calls the run queue is a doubly linked list of exactly the runnable
tasks. -/
theorem run_queue_kept {s : Rq} {cs : List SchedCall}
    (hrun : Exec (fun s c s' => s.Sensible c ∧ s.Keeps c ∧ s' = s.call c) (schedInit static) cs s) :
    s.QueuesRunnable := by
  have h : s.Orderly := by
    refine hrun.invariant (I := Orderly) ?_ orderly_schedInit
    rintro s c _ hs ⟨hsensible, hkeeps, rfl⟩
    exact hs.call hsensible hkeeps
  exact h.queuesRunnable

theorem run_queue_kept_three_calls :
    ∃ s, Exec (fun s c s' => s.Sensible c ∧ s.Keeps c ∧ s' = s.call c) (schedInit static)
      [.createTask 0 4096, .schedule, .exitTask 0] s ∧ s.QueuesRunnable := by
  have hrun : Exec (fun s c s' => s.Sensible c ∧ s.Keeps c ∧ s' = s.call c) (schedInit static)
      [.createTask 0 4096, .schedule, .exitTask 0] _ :=
    .cons ⟨trivial, .inl (by decide), rfl⟩ (.cons ⟨trivial, trivial, rfl⟩
      (.cons ⟨trivial, fun h => absurd h (by decide), rfl⟩ (.nil _)))
  exact ⟨_, hrun, run_queue_kept hrun⟩

theorem sleeper_stays_queued :
    ∃ s, Exec (fun s c s' => s.Sensible c ∧ s' = s.call c) (schedInit static)
      [.createTask 0 4096, .schedule, .sleepOn .interruptible] s ∧ ¬s.QueuesRunnable := by
  refine ⟨_, .cons ⟨trivial, rfl⟩ (.cons ⟨trivial, rfl⟩ (.cons ⟨.inl rfl, rfl⟩ (.nil _))), ?_⟩
  rintro ⟨q, hq, hmem⟩
  have hhead := hq.head_eq
  cases q with
  | nil => exact absurd hhead (by decide)
  | cons t q =>
    have ht : t = 2 := hhead.symm
    have hstate := ((hmem t).mp (List.mem_cons_self ..)).2.2
    rw [ht] at hstate
    exact absurd hstate (by decide)

end Rq

end GcAos.Sched
