import GcAos.Proc.Family

/-! The work stack of `kill_children` has room for every child, and the walk ends with the kin freed. -/

namespace GcAos.Proc
open Lib

namespace Kernel

variable {k : Kernel} {parent : ℤ} {V : Finset Slot} {stack : List ℤ} {calls : List Call}

/-- Wherever the loop of `kill_children` is in the table when it meets a child, the work stack has room
for the child's pid. -/
def KeepsChildren (k : Kernel) (parent : ℤ) : Prop :=
  ∀ v stack k₁, StateTransition.Reaches killTurn ([parent], k) (v :: stack, k₁) →
    ∀ met i rest, List.finRange maxProcesses = met ++ i :: rest →
      (met.foldl (killChild v) (stack, k₁)).2.IsChild v i →
      (met.foldl (killChild v) (stack, k₁)).1.length < maxProcesses

/-- The kin that are not freed, which is the current process if it is one of them, and what lies outside
of the kin are left as they are. -/
def FreesKin (k : Kernel) (parent : ℤ) (k' : Kernel) : Prop :=
  (∀ i, k.state i ≠ .free ∧ k'.state i = .free ↔ k.Kin parent i ∧ k.currentPid ≠ some i) ∧
    ∀ i, ¬(k.Kin parent i ∧ k.currentPid ≠ some i) → k'.procTable i = k.procTable i

theorem freesKin_release (hV : ∀ i, i ∈ V ↔ k.Kin parent i) : k.FreesKin parent (k.release V) := by
  refine ⟨fun i => ?_, fun i hi => ?_⟩
  · rw [release_state, hV]
    constructor
    · rintro ⟨hlive, hfree⟩
      exact hfree.resolve_left hlive
    · exact fun hi => ⟨hi.1.live, .inr hi⟩
  · rw [← hV] at hi
    exact if_neg hi

theorem Walk.reached (hg : k.Genealogy) {w : List ℤ × Kernel}
    (h : StateTransition.Reaches killTurn ([parent], k) w) :
    ∃ V, w.2 = k.release V ∧ k.Walk parent V w.1 := by
  induction h with
  | refl => exact ⟨∅, (release_empty k).symm, walk_start k parent⟩
  | @tail w w' _ hturn ih =>
    obtain ⟨V, hw, hwalk⟩ := ih
    obtain ⟨stack, k₁⟩ := w
    obtain rfl : k₁ = k.release V := hw
    cases stack with
    | nil => exact absurd hturn (Option.not_mem_none w')
    | cons v stack =>
      obtain rfl := Option.some.inj (hwalk.killTurn_eq.symm.trans hturn)
      exact ⟨_, rfl, hwalk.turn hg⟩

theorem Genealogy.keepsChildren (hg : k.Genealogy) (parent : ℤ) : k.KeepsChildren parent := by
  intro v stack k₁ hreach met i rest hsplit hchild
  obtain ⟨V, hk₁, hwalk⟩ := Walk.reached hg hreach
  obtain rfl : k₁ = k.release V := hk₁
  have hmet : ∀ j ∈ V, (k.procTable j).parentPid ≠ v := hwalk.unmet v List.mem_cons_self
  -- the children in the whole table are those before `i`, `i` and those after it
  have hchildren : k.childList v =
      met.filter ((k.release V).IsChild v) ++ (i :: rest).filter ((k.release V).IsChild v) := by
    rw [← List.filter_append, ← hsplit]
    apply List.filter_congr
    intro j _
    rw [decide_eq_decide]
    exact (isChild_release (hmet j)).symm
  have hnodup : (met ++ i :: rest).Nodup := hsplit ▸ List.nodup_finRange _
  have hroom := hwalk.room
  rw [hchildren, List.length_append] at hroom
  rw [foldl_killChild hnodup.of_append_left (by omega)] at hchild ⊢
  have hi : (k.release V).IsChild v i := by
    have hnot : i ∉ (met.filter ((k.release V).IsChild v)).toFinset := by
      rw [List.mem_toFinset]
      intro hi
      exact List.disjoint_of_nodup_append hnodup (List.mem_of_mem_filter hi) List.mem_cons_self
    exact (isChild_release fun hi => absurd hi hnot).mp hchild
  rw [List.filter_cons_of_pos (by simpa using hi), List.length_cons] at hroom
  simp only [List.length_append, List.length_reverse, List.length_map]
  omega

/-- In every state that calls lead to, `kill_children` ends for every number, no child is left out for
want of room on the work stack, and the kin of the number is freed but for the current process. -/
theorem kill_children_complete (h : Run calls k) (parent : ℤ) :
    k.KeepsChildren parent ∧ ∃ k', killChildren k parent = some k' ∧ k.FreesKin parent k' := by
  obtain ⟨-, hn⟩ := h.keeps
  obtain ⟨V, hkill, hV⟩ := killChildren_eq hn.toGenealogy parent
  exact ⟨hn.toGenealogy.keepsChildren parent, _, hkill, freesKin_release hV⟩

/-- The process in slot 2 makes a child, which records the number of that slot; this is the pid of the
first process. -/
theorem kill_children_complete_stranger :
    ∃ k k', Run [.create program, .create program, .create program, .schedule {}, .yield {}, .yield {},
        .create program] k ∧ k.currentPid = some 2 ∧ (k.procTable 0).pid = 2 ∧
      killChildren k 2 = some k' ∧ k.FreesKin 2 k' ∧ k.state 3 ≠ .free ∧ k'.state 3 = .free := by
  have hrun : ∃ k, Run [.create program, .create program, .create program, .schedule {}, .yield {},
        .yield {}, .create program] k ∧ k.currentPid = some 2 ∧ (k.procTable 0).pid = 2 ∧ k.IsChild 2 3 :=
    ⟨_, .cons rfl (.cons rfl (.cons rfl (.cons rfl (.cons rfl (.cons rfl (.cons rfl (.nil _))))))),
      by decide⟩
  obtain ⟨k, hrun, hcurrent, hpid, hchild⟩ := hrun
  obtain ⟨-, k', hkill, hfrees⟩ := kill_children_complete hrun 2
  have hfreed := (hfrees.1 3).mpr ⟨.child hchild, by rw [hcurrent]; decide⟩
  exact ⟨k, k', hrun, hcurrent, hpid, hkill, hfrees, hfreed⟩

end Kernel

end GcAos.Proc
