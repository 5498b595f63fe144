import GcAos.Proc.ProcessRun

/-! What a failed `process_create` leaves behind. -/

namespace GcAos.Proc
open Lib Kernel

variable {k : Kernel} {r : Request} {slot : Slot}

/-- The slot is given back: none was taken, or the only thing missing was the stack. -/
def Request.Undone (r : Request) (k : Kernel) : Prop :=
  (∀ i, k.state i ≠ .free) ∨ r.Loads k ∧ r.stack = 0

def SameStates (k k' : Kernel) : Prop := ∀ i, k'.state i = k.state i

theorem not_sameStates {k' : Kernel} (hfree : k.state slot = .free) (hready : k'.state slot = .ready) :
    ¬SameStates k k' := fun h =>
  absurd (hready.symm.trans ((h slot).trans hfree)) (by decide)

theorem enter_state (info : LoadInfo) (p : Process) (i : Slot) :
    (enter (reserve k slot) r slot info p).state i = if i = slot then p.state else k.state i := by
  have hother (h : i ≠ slot) : (enter (reserve k slot) r slot info p).procTable i = k.procTable i :=
    (Function.update_of_ne h ..).trans (reserve_procTable_of_ne h)
  have hself : (enter (reserve k slot) r slot info p).procTable slot = p := Function.update_self ..
  unfold Kernel.state
  split
  · next h => rw [h, hself]
  · next h => rw [hother h]

theorem processCreate_sameStates_iff (k : Kernel) (r : Request) :
    SameStates k (processCreate k r).2 ↔ r.Undone k := by
  rcases processCreate_cases k r with ⟨hnone, heq⟩ | ⟨slot, hslot, hcase⟩
  · rw [heq]
    exact iff_of_true (fun _ => rfl) (.inl (findFreeSlot_eq_none_iff.mp hnone))
  · have hfree := findFreeSlot_free hslot
    have hnot : ¬∀ i, k.state i ≠ .free := fun hall => hall slot hfree
    rcases hcase with ⟨hload, heq⟩ | ⟨hload, heq⟩
    · rw [heq]
      refine iff_of_false (not_sameStates hfree (reserve_state_self k slot)) ?_
      exact not_or.mpr ⟨hnot, fun hundone => hload hundone.1⟩
    · rw [heq]
      by_cases hstack : r.stack = 0
      · rw [setUp_of_no_stack _ hstack]
        refine iff_of_true (fun i => ?_) (.inr ⟨hload, hstack⟩)
        rw [enter_state]
        split
        · next hi => rw [hi, hfree]
        · rfl
      · rw [setUp_of_stack _ hstack]
        refine iff_of_false (not_sameStates hfree ?_) ?_
        · rw [enter_state, if_pos rfl]
          rfl
        · exact not_or.mpr ⟨hnot, fun hundone => hstack hundone.2⟩

theorem processCreate_result (hn : k.Numbered) :
    (processCreate k r).1 = -1 ∨ 0 ≤ (processCreate k r).1 := by
  rcases processCreate_cases k r with ⟨-, heq⟩ | ⟨slot, -, ⟨-, heq⟩ | ⟨-, heq⟩⟩
  · exact .inl (by rw [heq])
  · exact .inl (by rw [heq])
  · by_cases hstack : r.stack = 0
    · exact .inl (by rw [heq, setUp_of_no_stack _ hstack])
    · rw [heq, setUp_of_stack _ hstack]
      exact .inr (hn.nextPid_pos.trans (Int.lt_succ _)).le

theorem processCreate_state_of_ne {i : Slot} (hslot : findFreeSlotUnlocked k = some slot) (hi : i ≠ slot) :
    (processCreate k r).2.state i = k.state i := by
  rcases processCreate_cases k r with ⟨hnone, -⟩ | ⟨slot', hslot', hcase⟩
  · exact absurd (hslot.symm.trans hnone) (by simp)
  · obtain rfl := Option.some.inj (hslot.symm.trans hslot')
    rcases hcase with ⟨-, heq⟩ | ⟨-, heq⟩
    · rw [heq, Kernel.state, reserve_procTable_of_ne hi, Kernel.state]
    · by_cases hstack : r.stack = 0
      · rw [heq, setUp_of_no_stack _ hstack, enter_state, if_neg hi]
      · rw [heq, setUp_of_stack _ hstack, enter_state, if_neg hi]

/-- The process code, with the slots whose context the `process_create` that took them has set up. -/
structure Tracked where
  kernel : Kernel
  built : Slot → Prop

namespace Tracked

variable {t t' : Tracked} {c : Call} {calls : List Call}

def init : Tracked := ⟨processInit .static, fun _ => False⟩

def builtAfter (t : Tracked) : Call → Slot → Prop
  | .create r =>
    match findFreeSlotUnlocked t.kernel with
    | none => t.built
    | some slot => Function.update t.built slot (0 ≤ (processCreate t.kernel r).1)
  | _ => t.built

def Step (t : Tracked) (c : Call) (t' : Tracked) : Prop :=
  (t.kernel.call c).map (fun k => ⟨k, t.builtAfter c⟩) = some t'

theorem Step.kernel_built (h : t.Step c t') : t.kernel.Step c t'.kernel ∧ t'.built = t.builtAfter c := by
  obtain ⟨k, hcall, rfl⟩ := Option.map_eq_some_iff.mp h
  exact ⟨hcall, rfl⟩

/-- If the call is a `process_create` that fails, it gives its slot back. -/
def Undoes (t : Tracked) (c : Call) : Prop :=
  ∀ r, c = .create r → (processCreate t.kernel r).1 = -1 → r.Undone t.kernel

/-- A run in which every failed `process_create` gives its slot back. -/
def Run (calls : List Call) (t : Tracked) : Prop :=
  Exec (fun t c t' => t.Undoes c ∧ t.Step c t') init calls t

theorem step_built (hk : t.kernel.SingleRunning) (hn : t.kernel.Numbered)
    (hbuilt : ∀ i, t.kernel.state i ≠ .free → t.built i) (hundoes : t.Undoes c) (hstep : t.Step c t') :
    ∀ i, t'.kernel.state i ≠ .free → t'.built i := by
  obtain ⟨hcall, hb⟩ := hstep.kernel_built
  intro i hi
  by_cases hc : ∀ r, c ≠ .create r
  · obtain ⟨k', hcall', -, hshrinks⟩ := call_shrinks hk hn hc
    obtain rfl := Option.some.inj (hcall.symm.trans hcall')
    have hsame : t.builtAfter c = t.built := by
      cases c with
      | create r => exact absurd rfl (hc r)
      | _ => rfl
    rw [hb, hsame]
    exact hbuilt i (hshrinks.live i hi).1
  · push Not at hc
    obtain ⟨r, rfl⟩ := hc
    have hcreate : (processCreate t.kernel r).2 = t'.kernel := Option.some.inj hcall
    rw [← hcreate] at hi
    rw [hb]
    cases hslot : findFreeSlotUnlocked t.kernel with
    | none =>
      have hsame := (processCreate_sameStates_iff t.kernel r).mpr (.inl (findFreeSlot_eq_none_iff.mp hslot))
      have hafter : t.builtAfter (.create r) = t.built := by simp [builtAfter, hslot]
      rw [hafter]
      exact hbuilt i (hsame i ▸ hi)
    | some slot =>
      have hafter : t.builtAfter (.create r) =
          Function.update t.built slot (0 ≤ (processCreate t.kernel r).1) := by simp [builtAfter, hslot]
      rw [hafter]
      by_cases his : i = slot
      · subst his
        rw [Function.update_self]
        -- a call that fails would have left the slot free
        refine (processCreate_result hn).resolve_left fun hfail => hi ?_
        rw [(processCreate_sameStates_iff _ r).mpr (hundoes r rfl hfail) i]
        exact findFreeSlot_free hslot
      · rw [Function.update_of_ne his]
        exact hbuilt i (processCreate_state_of_ne hslot his ▸ hi)

theorem Run.keeps (h : Run calls t) :
    (t.kernel.SingleRunning ∧ t.kernel.Numbered) ∧ ∀ i, t.kernel.state i ≠ .free → t.built i := by
  apply Exec.invariant (I := fun t : Tracked =>
    (t.kernel.SingleRunning ∧ t.kernel.Numbered) ∧ ∀ i, t.kernel.state i ≠ .free → t.built i) _ h
  · exact ⟨processInit_keeps, fun i hi => absurd rfl hi⟩
  · rintro t c t' ⟨⟨hk, hn⟩, hbuilt⟩ ⟨hundoes, hstep⟩
    obtain ⟨k', hcall, hkeeps⟩ := call_keeps hk hn c
    obtain rfl := Option.some.inj (hcall.symm.trans hstep.kernel_built.1)
    exact ⟨hkeeps, step_built hk hn hbuilt hundoes hstep⟩

theorem Run.built_of_current (h : Run calls t) {k : Kernel} (hk : k.SingleRunning)
    (hshrinks : t.kernel.Shrinks k) {i : Slot} (hi : k.currentPid = some i) : t.built i :=
  h.keeps.2 i (hshrinks.live i (hk.live hi)).1

end Tracked

/-- A failed `process_create` leaves the states of the slots as they were just when there was no free
slot or only the stack was missing. In a run where this is so for all that fail, no scheduler switches
to a slot whose context is not set up. -/
theorem create_failure_iff (k : Kernel) (r : Request) {calls : List Call} {t : Tracked}
    (hrun : Tracked.Run calls t) :
    ((processCreate k r).1 = -1 → (SameStates k (processCreate k r).2 ↔ r.Undone k)) ∧
      ∀ saved i, ((processSchedule t.kernel saved).currentPid = some i → t.built i) ∧
        ((processYield t.kernel saved).currentPid = some i → t.built i) ∧
        ((irqHandler t.kernel saved).currentPid = some i → t.built i) := by
  refine ⟨fun _ => processCreate_sameStates_iff k r, fun saved i => ?_⟩
  obtain ⟨⟨hk, -⟩, -⟩ := hrun.keeps
  obtain ⟨hyield, hyield'⟩ := processYield_shrinks hk saved
  obtain ⟨hirq, hirq'⟩ := irqHandler_shrinks hk saved
  exact ⟨hrun.built_of_current (processSchedule_singleRunning hk.scheduling saved)
      (processSchedule_shrinks hk.scheduling saved),
    hrun.built_of_current hyield hyield', hrun.built_of_current hirq hirq'⟩

def missing : Request := { program with file := none }

def stackless : Request := { program with stack := 0 }

theorem stackless_undone : stackless.Undone (processInit .static) := by
  exact .inr ⟨⟨⟨⟨false, 64⟩, rfl, rfl, by decide, by decide⟩, by decide, by decide, rfl⟩, rfl⟩

theorem create_failure_stackless : ∃ t, Tracked.Run [.create stackless, .create program] t ∧
    SameStates (processInit .static) (processCreate (processInit .static) stackless).2 ∧
    (processSchedule t.kernel {}).currentPid = some 0 ∧ t.built 0 := by
  have hrun : ∃ t, Tracked.Run [.create stackless, .create program] t ∧
      (processSchedule t.kernel {}).currentPid = some 0 := by
    refine ⟨_, .cons ⟨?_, rfl⟩ (.cons ⟨?_, rfl⟩ (.nil _)), by decide⟩
    · rintro r hr -
      obtain rfl := Call.create.inj hr
      exact stackless_undone
    · rintro r hr hfail
      obtain rfl := Call.create.inj hr
      exact absurd hfail (by decide)
  obtain ⟨t, hrun, hcurrent⟩ := hrun
  obtain ⟨hiff, hbuilt⟩ := create_failure_iff (processInit .static) stackless hrun
  exact ⟨t, hrun, (hiff (by decide)).mpr stackless_undone, hcurrent, (hbuilt {} 0).1 hcurrent⟩

theorem missing_file_leaves_slot_ready :
    let k := processInit .static
    (processCreate k missing).1 = -1 ∧ k.state 0 = .free ∧ (processCreate k missing).2.state 0 = .ready ∧
      ¬SameStates k (processCreate k missing).2 ∧
      (processSchedule (processCreate k missing).2 {}).currentPid = some 0 := by
  have hready : (processCreate (processInit .static) missing).2.state 0 = .ready := by decide
  exact ⟨by decide, by decide, hready, not_sameStates rfl hready, by decide⟩

end GcAos.Proc
