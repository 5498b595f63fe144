import GcAos.Sync.EventLocks
import GcAos.Sync.FairnessLocks
import GcAos.Sync.GuiLocks
import GcAos.Sync.ProcessLocks

/-! Which calls wait for a lock that they hold themselves. -/

namespace GcAos.Sync
open Lib Events Gui Sched Proc.Modern LockAct

/-- The states may be any, and in those that the processes reach no parent ever waits. -/
theorem no_self_deadlock_iff (h : Handlers) (s : EventSystem) (g : GuiServer) (p : ProcessManager)
    (f : Fairness) :
    (∀ op : EventOp, ¬Deadlocks [] (op.locks h s) ↔ op.Safe s) ∧
    (∀ op : GuiOp, ¬Deadlocks [] (op.locks g) ↔ op.Safe g) ∧
    (∀ op : ProcessOp, ¬Deadlocks [] (op.locks p) ↔ op.Safe p) ∧
    (∀ op : FairnessOp, ¬Deadlocks [] (op.locks f) ↔ op.Safe f) ∧
    ∀ (idle : ℕ) (steps : List ProcessStep),
      steps.foldlM ProcessStep.run (processSystemInit idle) = some p →
        ∀ op : ProcessOp, ¬Deadlocks [] (op.locks p) := by
  refine ⟨event_deadlocks_iff h s, gui_deadlocks_iff g, process_deadlocks_iff p,
    fairness_deadlocks_iff f, fun idle steps hrun op => ?_⟩
  exact (process_deadlocks_iff p op).mpr ((NoWaiter.run hrun).safe op)

theorem killed_process_returns : ∃ p, [ProcessStep.processCreate (some "a") 1 0 (some 8) true 0,
    .processStart (some 8)].foldlM ProcessStep.run (processSystemInit 4) = some p ∧
      ¬Deadlocks [] (ProcessOp.locks p (.processKill 1)) :=
  ⟨_, rfl, (no_self_deadlock_iff ⟨fun _ => [], fun _ => rfl⟩ eventSystemInit
    ⟨{ initialized := true }, 0⟩ _ (fairnessInit (fun _ => freshTask 0 1) 1)).2.2.2.2 4
      [.processCreate (some "a") 1 0 (some 8) true 0, .processStart (some 8)] rfl _⟩

/-- The shutdown with a pending event, a key and a motion of the mouse with a window, and the tick
at which the time slice of a task with the lowest priority ends. -/
theorem shutdown_key_mouse_tick :
    (∀ h, Deadlocks [] (EventOp.locks h (eventSystemInit.eventPostSystem 0).1 .eventSystemShutdown)) ∧
    (∃ s, [WindowCall.create 4 (some "shell") 0 0 640 480 (some 64) (some 96)].foldlM WindowCall.step
        { initialized := true } = some s ∧
      Deadlocks [] (GuiOp.locks ⟨s, 0⟩ (.guiServerHandleKeyEvent 30 30 true false false false
        (some 16))) ∧
      Deadlocks [] (GuiOp.locks ⟨s, 0⟩ (.guiServerHandleMouseEvent 5 5 0 1 0 (some 16) fun _ =>
        some 24))) ∧
    ∃ s, fairnessEnqueueTask .textbook 1 (fairnessInit (fun _ => { freshTask 0 1 with nice := 19 }) 1) 1
        (runqueue 0) = some s ∧
      Deadlocks [] (FairnessOp.locks s (.fairnessTaskTick 1 (runqueue 0))) :=
  ⟨fun _ => deadlocks_shutdown (by decide +kernel), ⟨_, rfl, rfl, rfl⟩, _, rfl, rfl⟩

end GcAos.Sync
