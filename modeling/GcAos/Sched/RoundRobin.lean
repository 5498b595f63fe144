import GcAos.Sched.RunQueue
import Mathlib.Logic.Function.Iterate

/-! The rotation of the run queue by `schedule`. -/

namespace GcAos.Sched
open Lib

namespace Rq

/-- A run queue of at least two running tasks, the current one among them. -/
structure Ready (s : Rq) (q : List ℕ) : Prop where
  lists : s.Lists q
  running : ∀ t ∈ q, (s.tasks t).state = .running
  current : s.current ∈ q
  two : 2 ≤ q.length
  word : s.nrRunning < 2 ^ 32

structure Rotates (s : Rq) (q : List ℕ) : Prop where
  changes : (schedule s).current ≠ s.current
  queued : (schedule s).current ∈ q
  reaches : ∀ t ∈ q, ∃ k, 0 < k ∧ k ≤ q.length ∧ (schedule^[k] s).current = t

variable {s : Rq} {q : List ℕ}

theorem Ready.head_mem (h : s.Ready q) : s.head ∈ q := by
  have hhead := h.lists.head_eq
  have htwo := h.two
  cases q with
  | nil => exact absurd htwo (by decide)
  | cons t q =>
    rw [hhead]
    exact List.mem_cons_self ..

theorem Ready.head_ne_zero (h : s.Ready q) : s.head ≠ 0 := fun heq =>
  h.lists.zero_notMem (heq ▸ h.head_mem)

theorem Ready.head_requeue (h : s.Ready q) (hne : s.current ≠ s.head) :
    (enqueueTask (dequeueTask s s.current) s.current).head = s.head := by
  have hhead := h.lists.head_eq
  have hnd := h.lists.ring.nodup
  obtain ⟨xs, ys, rfl⟩ := List.append_of_mem h.current
  have hout : s.current ∉ 0 :: (xs ++ ys) := by grind
  have hlen : (xs ++ ys).length + 1 < 2 ^ 32 := by
    have hcount := h.lists.count
    have hword := h.word
    simp only [List.length_append, List.length_cons] at hcount ⊢
    omega
  have hmoved := enqueueTask_lists (dequeueTask_lists h.lists) hout hlen
  cases xs with
  | nil => exact absurd hhead.symm hne
  | cons x xs =>
    rw [hmoved.head_eq, hhead]
    rfl

theorem Ready.pickNextTask_eq (h : s.Ready q) : pickNextTask s = s.head := if_neg h.head_ne_zero

theorem Ready.schedule_eq_head (h : s.Ready q) :
    (schedule s).current = s.head ∧ (schedule s).head = s.head := by
  unfold schedule
  rw [h.pickNextTask_eq]
  dsimp only
  split
  · next heq => exact ⟨heq.symm, rfl⟩
  · next hne =>
    split
    · exact ⟨rfl, h.head_requeue (Ne.symm hne)⟩
    · exact ⟨rfl, rfl⟩

theorem schedule_of_current_eq_head (hc : s.current = s.head) (hhead : s.head ≠ 0) :
    schedule s = s := by
  have hpick : pickNextTask s = s.current := (if_neg hhead).trans hc.symm
  unfold schedule
  dsimp only
  rw [if_pos hpick]

theorem Ready.iterate_schedule (h : s.Ready q) (k : ℕ) :
    schedule^[k + 1] s = schedule s := by
  obtain ⟨hcurrent, hhead⟩ := h.schedule_eq_head
  have hfix : schedule (schedule s) = schedule s :=
    schedule_of_current_eq_head (hcurrent.trans hhead.symm) (hhead ▸ h.head_ne_zero)
  rw [Function.iterate_succ_apply]
  exact Function.iterate_fixed hfix k

/-- No queue of two or more tasks is rotated: `schedule` changes the current task if it is not the
head of the queue, and from then on the head stays current. -/
theorem never_rotates (h : s.Ready q) :
    ¬s.Rotates q ∧ ((schedule s).current ≠ s.current ↔ s.current ≠ s.head) ∧
      ∀ k, (schedule^[k + 1] s).current = s.head := by
  have hhead := h.schedule_eq_head.1
  have hall (k : ℕ) : (schedule^[k + 1] s).current = s.head := by
    rw [h.iterate_schedule, hhead]
  refine ⟨fun hrot => ?_, by rw [hhead, ne_comm], hall⟩
  -- every task reached is the head, and there are two
  have honly : ∀ t ∈ q, t = s.head := by
    intro t ht
    obtain ⟨k, hpos, -, rfl⟩ := hrot.reaches t ht
    obtain ⟨k, rfl⟩ := Nat.exists_eq_succ_of_ne_zero hpos.ne'
    exact hall k
  have hnd := h.lists.nodup
  have htwo := h.two
  match q with
  | [] | [_] => simp at htwo
  | t :: u :: q =>
    have ht := honly t (by simp)
    have hu := honly u (by simp)
    simp [ht, hu] at hnd

end Rq

def twoTasks : Rq :=
  schedule (((schedInit .static).call (.createTask 0 4096)).call (.createTask 0 8192))

theorem twoTasks_ready : twoTasks.Ready [2, 3] where
  lists := by
    refine ⟨⟨?_, by decide⟩, by decide, by decide⟩
    refine List.isChain_cons_cons.mpr ⟨⟨by decide, by decide⟩, ?_⟩
    refine List.isChain_cons_cons.mpr ⟨⟨by decide, by decide⟩, ?_⟩
    exact List.isChain_pair.mpr ⟨by decide, by decide⟩
  running := by decide
  current := by decide
  two := by decide
  word := by decide

theorem never_rotates_two_tasks : twoTasks.Ready [2, 3] ∧ ¬twoTasks.Rotates [2, 3] :=
  ⟨twoTasks_ready, (Rq.never_rotates twoTasks_ready).1⟩

/-- The second task waits while the first one stays current. -/
theorem first_task_stays_current :
    twoTasks.Ready [2, 3] ∧ (schedule twoTasks).current = twoTasks.current ∧
      ¬twoTasks.Rotates [2, 3] := by
  have hsame : (schedule twoTasks).current = twoTasks.current := by decide
  exact ⟨twoTasks_ready, hsame, fun hrot => hrot.changes hsame⟩

end GcAos.Sched
