import GcAos.Proc.Process
import Mathlib.Data.Finset.Card
import Mathlib.Data.Fintype.Card

/-! The walk of `kill_children` along the recorded parents. -/

namespace GcAos.Proc
open Lib

namespace Kernel

variable {k : Kernel} {parent : ℤ} {i j : Slot} {V W : Finset Slot}

/-- The entry `i` is one that `kill_children` takes for a child of `parent`. -/
def IsChild (k : Kernel) (parent : ℤ) (i : Slot) : Prop :=
  k.state i ≠ .free ∧ (k.procTable i).parentPid = parent

instance : DecidablePred (k.IsChild parent) := fun _ => inferInstanceAs (Decidable (_ ∧ _))

inductive Kin (k : Kernel) (parent : ℤ) : Slot → Prop
  | child {i : Slot} : k.IsChild parent i → Kin k parent i
  | next {j i : Slot} : Kin k parent j → k.IsChild (k.procTable j).pid i → Kin k parent i

/-- The processes in `V` are freed, but for the current one. -/
def release (k : Kernel) (V : Finset Slot) : Kernel :=
  { k with
    procTable := fun i =>
      if i ∈ V ∧ k.currentPid ≠ some i then
        { k.procTable i with stackBase := 0, state := .free, pid := 0 }
      else k.procTable i }

theorem release_empty (k : Kernel) : k.release ∅ = k := by
  simp [release]

theorem release_release (k : Kernel) (V W : Finset Slot) :
    (k.release V).release W = k.release (V ∪ W) := by
  unfold release
  congr 1
  funext i
  dsimp only
  by_cases hc : k.currentPid = some i
  · simp [hc]
  · by_cases hV : i ∈ V
    · by_cases hW : i ∈ W <;> simp [hc, hV, hW]
    · simp [hc, hV]

theorem release_singleton (hc : k.currentPid ≠ some i) :
    k.release {i} = k.modify i fun p => { p with stackBase := 0, state := .free, pid := 0 } := by
  unfold release modify
  congr 1
  funext j
  by_cases hji : j = i
  · subst hji
    simp [hc]
  · simp [hji]

theorem release_singleton_current (hc : k.currentPid = some i) : k.release {i} = k := by
  have hsame : (k.release {i}).procTable = k.procTable := by
    funext j
    apply if_neg
    rintro ⟨hmem, hne⟩
    obtain rfl := Finset.mem_singleton.mp hmem
    exact hne hc
  exact congrArg (fun table => { k with procTable := table }) hsame

theorem release_procTable_of_notMem (h : i ∉ V) : (k.release V).procTable i = k.procTable i :=
  if_neg fun hmem => h hmem.1

theorem release_procTable_current (h : k.currentPid = some i) :
    (k.release V).procTable i = k.procTable i :=
  if_neg fun hmem => hmem.2 h

@[simp] theorem release_currentPid : (k.release V).currentPid = k.currentPid := rfl
@[simp] theorem release_currentProcess : (k.release V).currentProcess = k.currentProcess := rfl
@[simp] theorem release_nextPid : (k.release V).nextPid = k.nextPid := rfl

@[simp] theorem release_parentPid :
    ((k.release V).procTable i).parentPid = (k.procTable i).parentPid := by
  unfold release
  dsimp only
  split <;> rfl

theorem release_state_of_ne_free (h : (k.release V).state i ≠ .free) :
    (k.release V).procTable i = k.procTable i := by
  unfold state release at h
  unfold release
  dsimp only at h ⊢
  split
  · next hmem => rw [if_pos hmem] at h; exact absurd rfl h
  · rfl

theorem isChild_release (h : i ∈ V → (k.procTable i).parentPid ≠ parent) :
    (k.release V).IsChild parent i ↔ k.IsChild parent i := by
  by_cases hV : i ∈ V
  · unfold IsChild
    rw [release_parentPid]
    simp [h hV]
  · unfold IsChild state
    rw [release_procTable_of_notMem hV]

end Kernel

open Kernel

theorem killChild_eq {k : Kernel} {parent : ℤ} {stack : List ℤ} {i : Slot}
    (h : k.IsChild parent i) (hroom : stack.length < maxProcesses) :
    killChild parent (stack, k) i = ((k.procTable i).pid :: stack, k.release {i}) := by
  unfold killChild
  unfold IsChild state at h
  dsimp only
  rw [if_pos h, if_pos hroom]
  split
  · next hc => rw [release_singleton hc]
  · next hc => rw [release_singleton_current (not_not.mp hc)]

theorem foldl_killChild {k : Kernel} {parent : ℤ} {l : List Slot} {stack : List ℤ} (hl : l.Nodup)
    (hroom : stack.length + (l.filter (k.IsChild parent)).length ≤ maxProcesses) :
    l.foldl (killChild parent) (stack, k) =
      (((l.filter (k.IsChild parent)).map fun i => (k.procTable i).pid).reverse ++ stack,
        k.release (l.filter (k.IsChild parent)).toFinset) := by
  induction l generalizing stack k with
  | nil => simp [release_empty]
  | cons i l ih =>
    obtain ⟨hi, hl⟩ := List.nodup_cons.mp hl
    rw [List.foldl_cons]
    by_cases hchild : k.IsChild parent i
    · -- what was freed is not met again
      have hsame : ∀ j ∈ l, (k.release {i}).procTable j = k.procTable j := fun j hj =>
        release_procTable_of_notMem fun hmem => hi (Finset.mem_singleton.mp hmem ▸ hj)
      have hfilter : l.filter ((k.release {i}).IsChild parent) = l.filter (k.IsChild parent) := by
        apply List.filter_congr
        intro j hj
        rw [decide_eq_decide]
        unfold IsChild state
        rw [hsame j hj]
      have hmap : (l.filter (k.IsChild parent)).map (fun j => ((k.release {i}).procTable j).pid) =
          (l.filter (k.IsChild parent)).map fun j => (k.procTable j).pid := by
        apply List.map_congr_left
        intro j hj
        rw [hsame j (List.mem_of_mem_filter hj)]
      rw [List.filter_cons_of_pos (by simpa using hchild)] at hroom ⊢
      rw [List.length_cons] at hroom
      rw [killChild_eq hchild (by omega), ih hl, hfilter, hmap, release_release]
      · rw [List.map_cons, List.reverse_cons, List.append_assoc, List.toFinset_cons, Finset.singleton_union]
        rfl
      · rw [hfilter, List.length_cons]
        omega
    · rw [List.filter_cons_of_neg (by simpa using hchild)] at hroom ⊢
      have hskip : killChild parent (stack, k) i = (stack, k) := if_neg hchild
      rw [hskip, ih hl hroom]

namespace Kernel

/-- What makes the walk a walk in a forest: a pid names one process, and a process is younger than the
one it records as its parent. -/
structure Genealogy (k : Kernel) : Prop where
  pid_inj : ∀ i j, k.state i ≠ .free → k.state j ≠ .free →
    (k.procTable i).pid = (k.procTable j).pid → i = j
  older : ∀ i, k.state i ≠ .free → (k.procTable i).parentPid < (k.procTable i).pid

variable {k : Kernel} {parent : ℤ} {i j : Slot} {V W : Finset Slot} {stack : List ℤ}

theorem Kin.live (h : k.Kin parent i) : k.state i ≠ .free := by
  cases h with
  | child h => exact h.1
  | next _ h => exact h.1

theorem Kin.lt_pid (hg : k.Genealogy) (h : k.Kin parent i) : parent < (k.procTable i).pid := by
  induction h with
  | child h => exact h.2 ▸ hg.older _ h.1
  | next _ h ih => exact ih.trans (h.2 ▸ hg.older _ h.1)

/-- The walk, with the entries in `V` met and the pids on the stack still to be asked for. -/
structure Walk (k : Kernel) (parent : ℤ) (V : Finset Slot) (stack : List ℤ) : Prop where
  kin : ∀ i ∈ V, k.Kin parent i
  rooted : ∀ i ∈ V, (k.procTable i).parentPid = parent ∨
    ∃ j ∈ V, (k.procTable i).parentPid = (k.procTable j).pid
  pending : ∀ v ∈ stack, v = parent ∨ ∃ i ∈ V, v = (k.procTable i).pid
  nodup : stack.Nodup
  unmet : ∀ v ∈ stack, ∀ i ∈ V, (k.procTable i).parentPid ≠ v
  closed : ∀ i, k.state i ≠ .free → ((k.procTable i).parentPid = parent ∨
    ∃ j ∈ V, (k.procTable i).parentPid = (k.procTable j).pid) →
      i ∈ V ∨ (k.procTable i).parentPid ∈ stack

theorem walk_start (k : Kernel) (parent : ℤ) : k.Walk parent ∅ [parent] where
  kin := by simp
  rooted := by simp
  pending := by simp
  nodup := by simp
  unmet := by simp
  closed := by simp

theorem Walk.mem_iff (h : k.Walk parent V []) : i ∈ V ↔ k.Kin parent i := by
  refine ⟨h.kin i, fun hkin => ?_⟩
  induction hkin with
  | child hc => simpa using h.closed _ hc.1 (.inl hc.2)
  | @next j i _ hc ih => simpa using h.closed _ hc.1 (.inr ⟨j, ih, hc.2⟩)

theorem Walk.length_le (h : k.Walk parent V stack) : stack.length ≤ V.card + 1 := by
  have hsub : stack.toFinset ⊆ insert parent (V.image fun i => (k.procTable i).pid) := by
    intro v hv
    rcases h.pending v (List.mem_toFinset.mp hv) with rfl | ⟨i, hi, rfl⟩
    · exact Finset.mem_insert_self ..
    · exact Finset.mem_insert_of_mem (Finset.mem_image_of_mem _ hi)
  calc
    stack.length = stack.toFinset.card := (List.toFinset_card_of_nodup h.nodup).symm
    _ ≤ _ := Finset.card_le_card hsub
    _ ≤ (V.image fun i => (k.procTable i).pid).card + 1 := Finset.card_insert_le ..
    _ ≤ V.card + 1 := Nat.add_le_add_right Finset.card_image_le 1

def childList (k : Kernel) (v : ℤ) : List Slot :=
  (List.finRange maxProcesses).filter (k.IsChild v)

theorem mem_childList {v : ℤ} : i ∈ k.childList v ↔ k.IsChild v i := by
  simp [childList]

theorem childList_nodup (k : Kernel) (v : ℤ) : (k.childList v).Nodup :=
  (List.nodup_finRange _).filter _

theorem Walk.disjoint {v : ℤ} (h : k.Walk parent V (v :: stack)) :
    Disjoint V (k.childList v).toFinset := by
  rw [Finset.disjoint_left]
  intro i hi hc
  exact h.unmet v List.mem_cons_self i hi (mem_childList.mp (List.mem_toFinset.mp hc)).2

theorem Walk.room {v : ℤ} (h : k.Walk parent V (v :: stack)) :
    stack.length + (k.childList v).length ≤ maxProcesses := by
  have hlen := h.length_le
  have hcard : (V ∪ (k.childList v).toFinset).card = V.card + (k.childList v).length := by
    rw [Finset.card_union_of_disjoint h.disjoint, List.toFinset_card_of_nodup (k.childList_nodup v)]
  have hle : (V ∪ (k.childList v).toFinset).card ≤ maxProcesses := card_finset_fin_le _
  rw [List.length_cons] at hlen
  omega

theorem mem_pushed {v w : ℤ} : w ∈ ((k.childList v).map fun i => (k.procTable i).pid).reverse ++ stack ↔
    (∃ c, k.IsChild v c ∧ (k.procTable c).pid = w) ∨ w ∈ stack := by
  simp [mem_childList]

theorem mem_met {v : ℤ} : i ∈ V ∪ (k.childList v).toFinset ↔ i ∈ V ∨ k.IsChild v i := by
  rw [Finset.mem_union, List.mem_toFinset, mem_childList]

theorem Walk.kin_child {v : ℤ} (h : k.Walk parent V (v :: stack)) (hi : k.IsChild v i) : k.Kin parent i := by
  rcases h.pending v List.mem_cons_self with rfl | ⟨j, hj, rfl⟩
  · exact .child hi
  · exact .next (h.kin j hj) hi

theorem Walk.child_new {v : ℤ} (hg : k.Genealogy) (h : k.Walk parent V (v :: stack)) (hi : k.IsChild v i) :
    (k.procTable i).pid ≠ parent ∧ ∀ j ∈ V, (k.procTable i).pid ≠ (k.procTable j).pid := by
  refine ⟨((h.kin_child hi).lt_pid hg).ne', fun j hj heq => ?_⟩
  obtain rfl := hg.pid_inj i j hi.1 (h.kin j hj).live heq
  exact h.unmet v List.mem_cons_self i hj hi.2

theorem Walk.turn_nodup {v : ℤ} (hg : k.Genealogy) (h : k.Walk parent V (v :: stack)) :
    (((k.childList v).map fun i => (k.procTable i).pid).reverse ++ stack).Nodup := by
  apply List.Nodup.append
  · rw [List.nodup_reverse]
    apply (k.childList_nodup v).map_on
    intro i hi j hj heq
    exact hg.pid_inj i j (mem_childList.mp hi).1 (mem_childList.mp hj).1 heq
  · exact (List.nodup_cons.mp h.nodup).2
  · intro w hw hstack
    rw [List.mem_reverse, List.mem_map] at hw
    obtain ⟨c, hc, rfl⟩ := hw
    obtain ⟨hfirst, hother⟩ := h.child_new hg (mem_childList.mp hc)
    rcases h.pending _ (List.mem_cons_of_mem _ hstack) with heq | ⟨i, hi, heq⟩
    · exact hfirst heq
    · exact hother i hi heq

theorem Walk.turn_unmet {v w : ℤ} (hg : k.Genealogy) (h : k.Walk parent V (v :: stack))
    (hw : (∃ c, k.IsChild v c ∧ (k.procTable c).pid = w) ∨ w ∈ stack) (hi : i ∈ V ∨ k.IsChild v i) :
    (k.procTable i).parentPid ≠ w := by
  intro heq
  rcases hw with ⟨c, hc, rfl⟩ | hw
  · rcases hi with hi | hi
    · obtain ⟨hfirst, hother⟩ := h.child_new hg hc
      rcases h.rooted i hi with hp | ⟨j, hj, hp⟩
      · exact hfirst (heq.symm.trans hp)
      · exact hother j hj (heq.symm.trans hp)
    · have hlt := hg.older c hc.1
      rw [hc.2, ← heq, hi.2] at hlt
      exact lt_irrefl v hlt
  · rcases hi with hi | hi
    · exact h.unmet w (List.mem_cons_of_mem _ hw) i hi heq
    · exact (List.nodup_cons.mp h.nodup).1 (hi.2.symm.trans heq ▸ hw)

theorem Walk.turn_closed {v : ℤ} (h : k.Walk parent V (v :: stack)) (hlive : k.state i ≠ .free)
    (hi : (k.procTable i).parentPid = parent ∨
      ∃ j ∈ V ∪ (k.childList v).toFinset, (k.procTable i).parentPid = (k.procTable j).pid) :
    i ∈ V ∪ (k.childList v).toFinset ∨
      (k.procTable i).parentPid ∈ ((k.childList v).map fun i => (k.procTable i).pid).reverse ++ stack := by
  by_cases hiv : (k.procTable i).parentPid = v
  · exact .inl (mem_met.mpr (.inr ⟨hlive, hiv⟩))
  have hold (hp : (k.procTable i).parentPid = parent ∨
      ∃ j ∈ V, (k.procTable i).parentPid = (k.procTable j).pid) :
      i ∈ V ∪ (k.childList v).toFinset ∨
        (k.procTable i).parentPid ∈ ((k.childList v).map fun i => (k.procTable i).pid).reverse ++ stack := by
    rcases h.closed i hlive hp with hmet | hpend
    · exact .inl (mem_met.mpr (.inl hmet))
    · exact .inr (mem_pushed.mpr (.inr (List.mem_of_ne_of_mem hiv hpend)))
  rcases hi with heq | ⟨j, hj, heq⟩
  · exact hold (.inl heq)
  · rcases mem_met.mp hj with hj | hj
    · exact hold (.inr ⟨j, hj, heq⟩)
    · exact .inr (mem_pushed.mpr (.inl ⟨j, hj, heq.symm⟩))

theorem Walk.turn {v : ℤ} (hg : k.Genealogy) (h : k.Walk parent V (v :: stack)) :
    k.Walk parent (V ∪ (k.childList v).toFinset)
      (((k.childList v).map fun i => (k.procTable i).pid).reverse ++ stack) where
  kin i hi := (mem_met.mp hi).elim (h.kin i) h.kin_child
  rooted i hi := by
    rcases mem_met.mp hi with hi | hi
    · rcases h.rooted i hi with heq | ⟨j, hj, heq⟩
      · exact .inl heq
      · exact .inr ⟨j, mem_met.mpr (.inl hj), heq⟩
    · rcases h.pending v List.mem_cons_self with rfl | ⟨j, hj, rfl⟩
      · exact .inl hi.2
      · exact .inr ⟨j, mem_met.mpr (.inl hj), hi.2⟩
  pending w hw := by
    rcases mem_pushed.mp hw with ⟨c, hc, rfl⟩ | hw
    · exact .inr ⟨c, mem_met.mpr (.inr hc), rfl⟩
    · rcases h.pending w (List.mem_cons_of_mem _ hw) with rfl | ⟨i, hi, rfl⟩
      · exact .inl rfl
      · exact .inr ⟨i, mem_met.mpr (.inl hi), rfl⟩
  nodup := h.turn_nodup hg
  unmet _ hw _ hi := h.turn_unmet hg (mem_pushed.mp hw) (mem_met.mp hi)
  closed _ hlive hi := h.turn_closed hlive hi

theorem Walk.killTurn_eq {v : ℤ} (h : k.Walk parent V (v :: stack)) :
    killTurn (v :: stack, k.release V) =
      some (((k.childList v).map fun i => (k.procTable i).pid).reverse ++ stack,
        k.release (V ∪ (k.childList v).toFinset)) := by
  have hmet : ∀ i ∈ V, (k.procTable i).parentPid ≠ v := h.unmet v List.mem_cons_self
  have hchildren : (List.finRange maxProcesses).filter ((k.release V).IsChild v) = k.childList v := by
    apply List.filter_congr
    intro i _
    rw [decide_eq_decide]
    exact isChild_release (hmet i)
  have hpids : ((k.childList v).map fun i => ((k.release V).procTable i).pid) =
      (k.childList v).map fun i => (k.procTable i).pid := by
    apply List.map_congr_left
    intro i hi
    rw [release_procTable_of_notMem fun hV => hmet i hV (mem_childList.mp hi).2]
  unfold killTurn
  dsimp only
  rw [foldl_killChild (List.nodup_finRange _) (by rw [hchildren]; exact h.room), hchildren, hpids,
    release_release]

theorem Walk.run (hg : k.Genealogy) (h : k.Walk parent V stack) {n : ℕ}
    (hn : stack.length + (maxProcesses - V.card) ≤ n) :
    ∃ W, Loop.run killTurn n (stack, k.release V) = ([], k.release W) ∧ ∀ i, i ∈ W ↔ k.Kin parent i := by
  induction n generalizing V stack with
  | zero =>
    obtain rfl : stack = [] := List.length_eq_zero_iff.mp (by omega)
    exact ⟨V, rfl, fun i => h.mem_iff⟩
  | succ n ih =>
    cases stack with
    | nil => exact ⟨V, rfl, fun i => h.mem_iff⟩
    | cons v stack =>
      rw [Loop.run_of_some h.killTurn_eq]
      apply ih (h.turn hg)
      have hle : (V ∪ (k.childList v).toFinset).card ≤ maxProcesses := card_finset_fin_le _
      rw [Finset.card_union_of_disjoint h.disjoint,
        List.toFinset_card_of_nodup (k.childList_nodup v)] at hle ⊢
      simp only [List.length_append, List.length_reverse, List.length_map, List.length_cons] at hn ⊢
      omega

theorem killChildren_eq (hg : k.Genealogy) (parent : ℤ) :
    ∃ V, killChildren k parent = some (k.release V) ∧ ∀ i, i ∈ V ↔ k.Kin parent i := by
  obtain ⟨V, hrun, hV⟩ := (walk_start k parent).run hg (n := killTurns) (by simp [killTurns, maxProcesses])
  refine ⟨V, ?_, hV⟩
  rw [release_empty] at hrun
  unfold killChildren
  rw [hrun]

end Kernel

end GcAos.Proc
