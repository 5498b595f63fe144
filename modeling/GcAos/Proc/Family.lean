import GcAos.Proc.ProcessRun

/-! Which processes end with another one, and which it has made. -/

namespace GcAos.Proc
open Lib Kernel

namespace Kernel

/-- The pid of the process that makes a call; the kernel has none. -/
def caller (k : Kernel) : Option ℤ := k.currentPid.map fun i => (k.procTable i).pid

end Kernel

/-- The process code, with the pid of the maker of every process that was made. -/
structure Lineage where
  kernel : Kernel
  made : ℤ → Option ℤ

namespace Lineage

variable {t t' : Lineage} {k k' : Kernel} {c : Call} {calls : List Call} {slot i j : Slot} {p q : ℤ}
  {made : ℤ → Option ℤ}

def init : Lineage := ⟨processInit .static, fun _ => none⟩

def madeAfter (t : Lineage) : Call → ℤ → Option ℤ
  | .create r =>
    let pid := (processCreate t.kernel r).1
    if pid = -1 then t.made else Function.update t.made pid t.kernel.caller
  | _ => t.made

def Step (t : Lineage) (c : Call) (t' : Lineage) : Prop :=
  (t.kernel.call c).map (fun k => ⟨k, t.madeAfter c⟩) = some t'

def Run (calls : List Call) (t : Lineage) : Prop := Exec Step init calls t

/-- The process `p` has made `q`, or a process that has, and so on. -/
def Descends (t : Lineage) (p q : ℤ) : Prop := Relation.TransGen (fun a b => t.made b = some a) p q

/-- A call that leads to `k'` frees the slot and those of the processes that descend from its process,
but for the current one, and no others. -/
def FreesFamily (t : Lineage) (slot : Slot) (k' : Kernel) : Prop :=
  ∀ i, k'.state i = .free ↔ t.kernel.state i = .free ∨ i = slot ∨
    t.kernel.currentPid ≠ some i ∧ t.Descends (t.kernel.procTable slot).pid (t.kernel.procTable i).pid

def RecordsFamily (t : Lineage) (slot : Slot) : Prop :=
  ∀ i, t.kernel.state i ≠ .free → i ≠ slot → t.kernel.currentPid ≠ some i →
    (t.kernel.Kin (t.kernel.procTable slot).pid i ↔
      t.Descends (t.kernel.procTable slot).pid (t.kernel.procTable i).pid)

/-- What is recorded of a process: a number below the pid of its maker. -/
structure Recorded (t : Lineage) : Prop where
  made_lt : ∀ p q, t.made p = some q → p < t.kernel.nextPid
  parent_lt : ∀ i, t.kernel.state i ≠ .free → ∀ q, t.made (t.kernel.procTable i).pid = some q →
    (t.kernel.procTable i).parentPid < q

theorem Step.kernel_made (h : t.Step c t') : t.kernel.Step c t'.kernel ∧ t'.made = t.madeAfter c := by
  obtain ⟨k, hcall, rfl⟩ := Option.map_eq_some_iff.mp h
  exact ⟨hcall, rfl⟩

theorem madeAfter_of_ne_create (hc : ∀ r, c ≠ .create r) : t.madeAfter c = t.made := by
  cases c with
  | create r => exact absurd rfl (hc r)
  | _ => rfl

theorem caller_gt (hk : k.SingleRunning) (hn : k.Numbered) (hq : k.caller = some q) :
    k.currentNumber < q := by
  unfold caller at hq
  unfold currentNumber
  cases hc : k.currentPid with
  | none => simp [hc] at hq
  | some s =>
    rw [hc] at hq
    obtain rfl := Option.some.inj hq
    exact hn.slot_lt s (hk.live hc)

theorem caller_reserve (hc : k.currentPid ≠ some slot) : (reserve k slot).caller = k.caller := by
  have hcurrent : (reserve k slot).currentPid = k.currentPid := rfl
  unfold caller
  rw [hcurrent]
  apply Option.map_congr
  intro i hi
  rw [reserve_procTable_of_ne]
  rintro rfl
  exact hc hi

theorem Recorded.reserve (h : Recorded ⟨k, made⟩) (slot : Slot) : Recorded ⟨reserve k slot, made⟩ where
  made_lt p q hp := (h.made_lt p q hp).trans (Int.lt_succ _)
  parent_lt i hi q hq := by
    dsimp only at hi hq ⊢
    by_cases his : i = slot
    · -- the pid is a new one
      rw [his, reserve_procTable_self] at hq
      exact absurd (h.made_lt _ q hq) (lt_irrefl _)
    · unfold Kernel.state at hi
      rw [reserve_procTable_of_ne his] at hi hq ⊢
      exact h.parent_lt i hi q hq

theorem Recorded.made_nextPid (h : Recorded ⟨k, made⟩) : made k.nextPid = none := by
  cases hmade : made k.nextPid with
  | none => rfl
  | some q => exact absurd (h.made_lt _ q hmade) (lt_irrefl _)

theorem Recorded.enter {r : Request} {info : LoadInfo} {p : Process} {who : Option ℤ}
    (h : Recorded ⟨k, made⟩) (hn : k.Numbered) (hpid : p.pid = k.nextPid)
    (hwho : p.state ≠ .free → ∀ q, who = some q → p.parentPid < q) :
    Recorded ⟨enter k r slot info p, Function.update made k.nextPid who⟩ := by
  have hself : (Proc.enter k r slot info p).procTable slot = p := Function.update_self ..
  refine ⟨fun a q ha => ?_, fun i hi q hq => ?_⟩
  · have hnext : (Proc.enter k r slot info p).nextPid = k.nextPid + 1 := rfl
    dsimp only at ha ⊢
    rw [hnext]
    by_cases hane : a = k.nextPid
    · omega
    · rw [Function.update_of_ne hane] at ha
      exact (h.made_lt a q ha).trans (Int.lt_succ _)
  · dsimp only at hi hq ⊢
    unfold Kernel.state at hi
    by_cases his : i = slot
    · rw [his, hself] at hi hq ⊢
      rw [hpid, Function.update_self] at hq
      exact hwho hi q hq
    · have hother : (Proc.enter k r slot info p).procTable i = k.procTable i := Function.update_of_ne his ..
      rw [hother] at hi hq ⊢
      rw [Function.update_of_ne (hn.pid_lt i hi).ne] at hq
      exact h.parent_lt i hi q hq

theorem Recorded.step (h : t.Recorded) (hk : t.kernel.SingleRunning) (hn : t.kernel.Numbered)
    (hstep : t.Step c t') : t'.Recorded := by
  obtain ⟨hcall, hmade⟩ := hstep.kernel_made
  by_cases hc : ∀ r, c ≠ .create r
  · obtain ⟨k', hcall', -, hshrinks⟩ := call_shrinks hk hn hc
    obtain rfl := Option.some.inj (hcall.symm.trans hcall')
    rw [madeAfter_of_ne_create hc] at hmade
    refine ⟨fun p q hp => ?_, fun i hi q hq => ?_⟩
    · rw [hshrinks.nextPid]
      exact h.made_lt p q (hmade ▸ hp)
    · obtain ⟨hlive, hpid⟩ := hshrinks.live i hi
      rw [hmade, hpid] at hq
      rw [hshrinks.parentPid]
      exact h.parent_lt i hlive q hq
  · push Not at hc
    obtain ⟨r, rfl⟩ := hc
    obtain ⟨k', made'⟩ := t'
    obtain ⟨k, made⟩ := t
    obtain rfl : (processCreate k r).2 = k' := Option.some.inj hcall
    dsimp only at hk hn
    have hmade : made' = if (processCreate k r).1 = -1 then made
      else Function.update made (processCreate k r).1 k.caller := hmade
    rcases processCreate_cases k r with ⟨-, heq⟩ | ⟨slot, hslot, ⟨-, heq⟩ | ⟨-, heq⟩⟩
    · rw [heq, if_pos rfl] at hmade
      rw [heq, hmade]
      exact h
    · rw [heq, if_pos rfl] at hmade
      rw [heq, hmade]
      exact h.reserve slot
    · have hfree := findFreeSlot_ne_current hk hslot
      have hk' := reserve_singleRunning hk hfree
      have hn' := reserve_numbered hn hslot
      by_cases hstack : r.stack = 0
      · rw [setUp_of_no_stack _ hstack] at heq
        rw [heq, if_pos rfl, ← Function.update_eq_self (Proc.reserve k slot).nextPid made,
          (h.reserve slot).made_nextPid] at hmade
        rw [heq, hmade]
        exact (h.reserve slot).enter hn' rfl fun hp => absurd rfl hp
      · rw [setUp_of_stack _ hstack] at heq
        have hpos : (Proc.reserve k slot).nextPid ≠ -1 := by
          have := hn'.nextPid_pos
          omega
        rw [heq, if_neg hpos, ← caller_reserve hfree] at hmade
        rw [heq, hmade]
        exact (h.reserve slot).enter hn' rfl fun _ q hq => caller_gt hk' hn' hq

theorem Run.keeps (h : Run calls t) :
    (t.kernel.SingleRunning ∧ t.kernel.Numbered) ∧ t.Recorded := by
  apply Exec.invariant (I := fun t : Lineage => (t.kernel.SingleRunning ∧ t.kernel.Numbered) ∧ t.Recorded) _ h
  · exact ⟨processInit_keeps, fun p q hp => absurd hp (by simp [init]), fun i hi => absurd rfl hi⟩
  · rintro t c t' ⟨⟨hk, hn⟩, hrec⟩ hstep
    obtain ⟨k', hcall, hkeeps⟩ := call_keeps hk hn c
    obtain rfl := Option.some.inj (hcall.symm.trans hstep.kernel_made.1)
    exact ⟨hkeeps, hrec.step hk hn hstep⟩

theorem Recorded.not_kin (h : t.Recorded) (hn : t.kernel.Numbered) (hlive : t.kernel.state i ≠ .free)
    (hmade : t.made (t.kernel.procTable i).pid = some p) : ¬t.kernel.Kin p i := by
  have hlt := h.parent_lt i hlive p hmade
  intro hkin
  cases hkin with
  | child hchild => exact hlt.ne hchild.2
  | @next j _ hj hchild =>
    have hgt := hj.lt_pid hn.toGenealogy
    rw [hchild.2] at hlt
    exact lt_asymm hlt hgt

theorem freesFamily_iff (hk' : ∀ i, k'.state i = .free ↔ t.kernel.state i = .free ∨ i = slot ∨
      t.kernel.currentPid ≠ some i ∧ t.kernel.Kin (t.kernel.procTable slot).pid i) :
    t.FreesFamily slot k' ↔ t.RecordsFamily slot := by
  constructor
  · intro h i hlive hne hc
    have hi := (hk' i).symm.trans (h i)
    simpa [hlive, hne, hc] using hi
  · intro h i
    rw [hk' i]
    by_cases hlive : t.kernel.state i = .free
    · simp [hlive]
    · by_cases hne : i = slot
      · simp [hne]
      · by_cases hc : t.kernel.currentPid = some i
        · simp [hc]
        · simp [hlive, hne, hc, h i hlive hne hc]

end Lineage

theorem release_state {k : Kernel} {V : Finset Slot} (i : Slot) :
    (k.release V).state i = .free ↔ k.state i = .free ∨ i ∈ V ∧ k.currentPid ≠ some i := by
  unfold Kernel.state release
  dsimp only
  split
  · next h => simp [h]
  · next h => simp [h]

theorem processKill_eq {k : Kernel} (hn : k.Numbered) {slot : Slot} (hlive : k.state slot ≠ .free)
    (hc : k.currentPid ≠ some slot) :
    ∃ V, (∀ i, i ∈ V ↔ k.Kin (k.procTable slot).pid i) ∧
      processKill k (k.procTable slot).pid = some (0, discard (k.release V) slot) := by
  have hpos : ¬(k.procTable slot).pid ≤ 0 := by
    have := hn.slot_lt slot hlive
    omega
  have hfind : ((List.finRange maxProcesses).find? fun i =>
      (k.procTable i).pid = (k.procTable slot).pid ∧ k.state i ≠ .free) = some slot := by
    cases hfind : (List.finRange maxProcesses).find? fun i =>
        (k.procTable i).pid = (k.procTable slot).pid ∧ k.state i ≠ .free with
    | none => simpa [hlive] using List.find?_eq_none.mp hfind slot (List.mem_finRange slot)
    | some i =>
      have hi := List.find?_some hfind
      simp only [decide_eq_true_eq] at hi
      rw [hn.pid_inj i slot hi.2 hlive hi.1]
  obtain ⟨V, hkill, hV⟩ := killChildren_eq hn.toGenealogy (k.procTable slot).pid
  refine ⟨V, hV, ?_⟩
  unfold processKill
  rw [if_neg hpos, hfind]
  dsimp only
  rw [if_neg hc, hkill]
  rfl

/-- The end of a process, by `process_kill` or by `process_exit`, frees the slots of its descendants
just when the numbers recorded as parents lead to them. They do not lead to any process that it has made
itself. -/
theorem frees_family_iff {calls : List Call} {t : Lineage} (h : Lineage.Run calls t) (slot : Slot) :
    (t.kernel.state slot ≠ .free → t.kernel.currentPid ≠ some slot →
      ∃ k', processKill t.kernel (t.kernel.procTable slot).pid = some (0, k') ∧
        (t.FreesFamily slot k' ↔ t.RecordsFamily slot)) ∧
    (t.kernel.currentPid = some slot → ∀ status saved,
      ∃ k', processExit t.kernel status saved = some k' ∧
        (t.FreesFamily slot k' ↔ t.RecordsFamily slot)) ∧
    ∀ i, t.kernel.state i ≠ .free → i ≠ slot → t.kernel.currentPid ≠ some i →
      t.made (t.kernel.procTable i).pid = some (t.kernel.procTable slot).pid → ¬t.RecordsFamily slot := by
  obtain ⟨⟨hk, hn⟩, hrec⟩ := h.keeps
  refine ⟨fun hlive hc => ?_, fun hc status saved => ?_, fun i hlive hne hc hmade hrecords => ?_⟩
  · obtain ⟨V, hV, hkill⟩ := processKill_eq hn hlive hc
    refine ⟨_, hkill, Lineage.freesFamily_iff fun i => ?_⟩
    unfold discard
    rw [modify_state]
    split
    · next hi => simp [hi]
    · next hi => rw [release_state, hV]; tauto
  · obtain ⟨V, k', hV, hexit, hk'⟩ := processExit_eq hn hc status saved
    refine ⟨k', hexit, Lineage.freesFamily_iff fun i => ?_⟩
    have hstate : k'.state i = (leave (t.kernel.release V) slot status).state i := by
      rcases hk' with rfl | rfl
      · rfl
      · exact saveContext_state ..
    rw [hstate, leave_state]
    split
    · next hi => simp [hi]
    · next hi => rw [release_state, hV]; tauto
  · exact hrec.not_kin hn hlive hmade ((hrecords i hlive hne hc).mpr (.single hmade))

theorem Lineage.recordsFamily_of_kernel {t : Lineage} (hn : t.kernel.Numbered) (slot : Slot)
    (hparent : ∀ i, t.kernel.state i ≠ .free → (t.kernel.procTable i).parentPid = -1)
    (hmade : ∀ i, t.kernel.state i ≠ .free → t.made (t.kernel.procTable i).pid = none)
    (hlive : t.kernel.state slot ≠ .free) : t.RecordsFamily slot := by
  intro i hi _ _
  have hpos {j : Slot} (hj : t.kernel.state j ≠ .free) : (t.kernel.procTable j).pid ≠ -1 := by
    have := hn.slot_lt j hj
    omega
  refine iff_of_false (fun hkin => ?_) fun hdesc => ?_
  · cases hkin with
    | child hchild => exact hpos hlive (hchild.2.symm.trans (hparent i hi))
    | next hj hchild => exact hpos hj.live (hchild.2.symm.trans (hparent i hi))
  · obtain ⟨a, -, ha⟩ := Relation.TransGen.tail'_iff.mp hdesc
    exact absurd (ha.symm.trans (hmade i hi)) (by simp)

theorem frees_family_of_kernel : ∃ t k', Lineage.Run [.create program, .create program] t ∧
    processKill t.kernel 2 = some (0, k') ∧ t.FreesFamily 0 k' := by
  have hrun : ∃ t, Lineage.Run [.create program, .create program] t ∧
      (t.kernel.procTable 0).pid = 2 ∧ t.kernel.state 0 ≠ .free ∧ t.kernel.currentPid ≠ some 0 ∧
      (∀ i, t.kernel.state i ≠ .free → (t.kernel.procTable i).parentPid = -1) ∧
      ∀ i, t.kernel.state i ≠ .free → t.made (t.kernel.procTable i).pid = none :=
    ⟨_, .cons rfl (.cons rfl (.nil _)), by decide⟩
  obtain ⟨t, hrun, hpid, hlive, hc, hparent, hmade⟩ := hrun
  obtain ⟨k', hkill, hiff⟩ := (frees_family_iff hrun 0).1 hlive hc
  exact ⟨t, k', hrun, hpid ▸ hkill,
    hiff.mpr (t.recordsFamily_of_kernel hrun.keeps.1.2 0 hparent hmade hlive)⟩

/-- The kernel makes a process, which makes another one and ends: the second one stays, since it records
the slot 0 of its maker and not the pid 2. -/
theorem child_outlives_parent : ∃ t k', Lineage.Run [.create program, .schedule {}, .create program] t ∧
    t.kernel.currentPid = some 0 ∧ t.Descends 2 4 ∧ (t.kernel.procTable 1).parentPid = 0 ∧
    processExit t.kernel 0 {} = some k' ∧ k'.state 1 = .ready ∧ ¬t.FreesFamily 0 k' := by
  have hrun : ∃ t k', Lineage.Run [.create program, .schedule {}, .create program] t ∧
      processExit t.kernel 0 {} = some k' ∧ t.kernel.currentPid = some 0 ∧
      (t.kernel.procTable 0).pid = 2 ∧ (t.kernel.procTable 1).pid = 4 ∧ t.made 4 = some 2 ∧
      (t.kernel.procTable 1).parentPid = 0 ∧ k'.state 1 = .ready :=
    ⟨_, _, .cons rfl (.cons rfl (.cons rfl (.nil _))), rfl, by decide⟩
  obtain ⟨t, k', hrun, hexit, hc, hpid, hpid', hmade, hparent, hstate⟩ := hrun
  have hdesc : t.Descends 2 4 := .single hmade
  refine ⟨t, k', hrun, hc, hdesc, hparent, hexit, hstate, fun h => ?_⟩
  have hfree := (h 1).mpr (.inr (.inr ⟨by rw [hc]; decide, by rw [hpid, hpid']; exact hdesc⟩))
  exact absurd (hstate.symm.trans hfree) (by decide)

end GcAos.Proc
