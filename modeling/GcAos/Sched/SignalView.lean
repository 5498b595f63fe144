import GcAos.Sched.Signal

/-! The signals of one task, as the runs of all tasks change them. -/

namespace GcAos.Sched
open Lib

/-- The signal state of a task and its calls of `do_signal`. -/
structure TaskSignals where
  state : SignalStruct
  calls : List SignalCall

/-- The action of the signal is the default one, which ends in `exit_task`. -/
def SignalStruct.Terminates (σ : SignalStruct) (sig : ℕ) : Prop :=
  (σ.actions sig).saHandler = sigDfl ∧ defaultAction sig = .term

instance (σ : SignalStruct) (sig : ℕ) : Decidable (σ.Terminates sig) :=
  inferInstanceAs (Decidable (_ ∧ _))

def SignalStruct.mode (σ : SignalStruct) (sig : ℕ) : CallMode :=
  if σ.Terminates sig then .exit
  else if (σ.actions sig).saHandler = sigDfl ∨ (σ.actions sig).saHandler = sigIgn then .loop
  else .handler

theorem SignalStruct.mode_eq_exit {σ : SignalStruct} {sig : ℕ} : σ.mode sig = .exit ↔
    σ.Terminates sig := by
  unfold mode
  split
  next hterm => exact iff_of_true rfl hterm
  next hterm =>
    split <;> exact iff_of_false CallMode.noConfusion hterm

namespace SignalAction

/-- Iterations of the loop of `do_signal` by `t`. -/
@[simp] def Loops (t : ℕ) : SignalAction → Bool
  | .next task _ => task = t
  | .take task _ => task = t
  | _ => false

/-- Steps of `t` in `do_signal`. -/
@[simp] def Moves (t : ℕ) (a : SignalAction) : Prop :=
  a = .doSignal t ∨ a.Loops t ∨ a = .ret t ∨ a = .handlerReturn t

end SignalAction

namespace TaskSignals

def Free (v : TaskSignals) : Prop := ∀ c ∈ v.calls.head?, c.mode = .handler

/-- The steps of the task `t`, and of others for its signals. -/
inductive Step (t : ℕ) : TaskSignals → SignalAction → TaskSignals → Prop
  | stay {v : TaskSignals} {a : SignalAction} (hother : ¬a.Moves t) : Step t v a v
  | kill {v : TaskSignals} {sig : ℕ} (hsig : sig < nsig) :
      Step t v (.killTask t sig) ⟨{ v.state with pending := v.state.pending ||| sigBit sig }, v.calls⟩
  | mask {v : TaskSignals} {how : ℤ} {set : Option Sigset} {blocked : Sigset} :
      Step t v (.sigprocmask t how set)
        ⟨{ v.state with blocked := blocked &&& ~~~(sigBit sigkill ||| sigBit sigstop) }, v.calls⟩
  | action {v : TaskSignals} {sig : ℕ} {act : Sigaction} (hkill : sig ≠ sigkill)
      (hstop : sig ≠ sigstop) :
      Step t v (.sigaction t sig (some act))
        ⟨{ v.state with actions := Function.update v.state.actions sig act }, v.calls⟩
  | idle {v : TaskSignals} (hnone : deliverable v.state = 0) : Step t v (.doSignal t) v
  | enter {v : TaskSignals} (hfree : v.Free) (hsome : deliverable v.state ≠ 0) :
      Step t v (.doSignal t) ⟨v.state, ⟨deliverable v.state, 1, .loop⟩ :: v.calls⟩
  | next {σ : SignalStruct} {c : SignalCall} {calls : List SignalCall} (hloop : c.mode = .loop)
      (hsig : c.sig < nsig)
      (hclear : c.pending.getLsbD c.sig = false) :
      Step t ⟨σ, c :: calls⟩ (.next t c.sig) ⟨σ, { c with sig := c.sig + 1 } :: calls⟩
  | take {σ : SignalStruct} {c : SignalCall} {calls : List SignalCall} (hloop : c.mode = .loop)
      (hsig : c.sig < nsig)
      (hset : c.pending.getLsbD c.sig = true) :
      Step t ⟨σ, c :: calls⟩ (.take t c.sig)
        ⟨{ σ with pending := σ.pending &&& ~~~sigBit c.sig },
          { c with sig := c.sig + 1, mode := σ.mode c.sig } :: calls⟩
  | ret {σ : SignalStruct} {c : SignalCall} {calls : List SignalCall} (hloop : c.mode = .loop)
      (hsig : nsig ≤ c.sig) :
      Step t ⟨σ, c :: calls⟩ (.ret t) ⟨σ, calls⟩
  | handlerReturn {σ : SignalStruct} {c : SignalCall} {calls : List SignalCall}
      (hmode : c.mode = .handler) :
      Step t ⟨σ, c :: calls⟩ (.handlerReturn t) ⟨σ, { c with mode := .loop } :: calls⟩

end TaskSignals

namespace Signals

/-- The signals of the task `t`, which has got a signal state. -/
def view (s : Signals) (t : ℕ) : TaskSignals := ⟨(s.signals t).getD {}, s.calls t⟩

variable {s s' : Signals} {σ : SignalStruct} {t u : ℕ} {a : SignalAction} {c : SignalCall}
  {calls : List SignalCall}

theorem signals_setSignals_self : (s.setSignals t σ).signals t = some σ := Function.update_self ..

theorem signals_setSignals_of_ne (h : t ≠ u) : (s.setSignals u σ).signals t = s.signals t :=
  Function.update_of_ne h ..

theorem calls_setCalls_self : (s.setCalls t calls).calls t = calls := Function.update_self ..

theorem calls_setCalls_of_ne (h : t ≠ u) : (s.setCalls u calls).calls t = s.calls t :=
  Function.update_of_ne h ..

theorem take_eq (s : Signals) (σ : SignalStruct) (c : SignalCall) (calls : List SignalCall) :
    ∃ rq, s.take σ c calls =
      { (s.setSignals s.rq.current
            { σ with pending := σ.pending &&& ~~~sigBit c.sig }).setCalls s.rq.current
          ({ c with sig := c.sig + 1, mode := σ.mode c.sig } :: calls) with rq } := by
  have hne : sigIgn ≠ sigDfl := by decide
  unfold take
  dsimp only
  by_cases hign : (σ.actions c.sig).saHandler = sigIgn
  · have hmode : σ.mode c.sig = .loop := by simp [SignalStruct.mode, SignalStruct.Terminates, hign, hne]
    rw [if_pos hign, hmode]
    exact ⟨_, rfl⟩
  · rw [if_neg hign]
    by_cases hdfl : (σ.actions c.sig).saHandler = sigDfl
    · have hmode : σ.mode c.sig = if defaultAction c.sig = .term then .exit else .loop := by
        simp [SignalStruct.mode, SignalStruct.Terminates, hdfl]
      rw [if_pos hdfl, hmode]
      cases defaultAction c.sig <;> exact ⟨_, rfl⟩
    · have hmode : σ.mode c.sig = .handler := by
        simp [SignalStruct.mode, SignalStruct.Terminates, hdfl, hign]
      rw [if_neg hdfl, hmode]
      exact ⟨_, rfl⟩

theorem killTask_cases (s : Signals) (u : ℕ) (sig : ℤ) :
    (s.killTask u sig).1 = -1 ∧ (s.killTask u sig).2 = s ∨
      (s.killTask u sig).1 = 0 ∧ 0 ≤ sig ∧ sig < nsig ∧ u ≠ 0 ∧ ∃ σ rq,
        s.signals u = some σ ∧ (s.killTask u sig).2 =
        { s.setSignals u { σ with pending := σ.pending ||| sigBit sig.toNat } with rq } := by
  unfold killTask
  by_cases hsig : sig < 0 ∨ nsig ≤ sig
  · rw [if_pos hsig]
    exact .inl ⟨rfl, rfl⟩
  · rw [if_neg hsig]
    by_cases hu : u = 0
    · rw [if_pos hu]
      exact .inl ⟨rfl, rfl⟩
    · rw [if_neg hu]
      cases hσ : s.signals u with
      | none => exact .inl ⟨rfl, rfl⟩
      | some σ =>
        dsimp only
        split
        · exact .inr ⟨rfl, by omega, by omega, hu, σ, _, rfl, rfl⟩
        · exact .inr ⟨rfl, by omega, by omega, hu, σ, s.rq, rfl, rfl⟩

theorem sigprocmask_cases (s : Signals) (how : ℤ) (set : Option Sigset) :
    (s.sigprocmask how set).2.2 = s ∨ ∃ σ blocked, s.signals s.rq.current = some σ ∧
      (s.sigprocmask how set).2.2 = s.setSignals s.rq.current
        { σ with blocked := blocked &&& ~~~(sigBit sigkill ||| sigBit sigstop) } := by
  unfold sigprocmask
  cases hσ : s.signals s.rq.current with
  | none => exact .inl rfl
  | some σ =>
    cases set with
    | none => exact .inr ⟨σ, _, rfl, rfl⟩
    | some set =>
      dsimp only
      split
      · exact .inr ⟨σ, _, rfl, rfl⟩
      · split
        · exact .inr ⟨σ, _, rfl, rfl⟩
        · split
          · exact .inr ⟨σ, _, rfl, rfl⟩
          · exact .inl rfl

theorem sigactionSyscall_cases (s : Signals) (sig : ℤ) (act : Option Sigaction) :
    (s.sigactionSyscall sig act).2.2 = s ∨ ∃ (n : ℕ) (σ : SignalStruct) (new : Sigaction),
      sig = n ∧ act = some new ∧
      n ≠ sigkill ∧ n ≠ sigstop ∧ s.signals s.rq.current = some σ ∧ (s.sigactionSyscall sig act).2.2 =
        s.setSignals s.rq.current { σ with actions := Function.update σ.actions n new } := by
  unfold sigactionSyscall
  by_cases hsig : sig < 1 ∨ nsig ≤ sig
  · rw [if_pos hsig]
    exact .inl rfl
  · rw [if_neg hsig]
    by_cases hcatch : sig = sigkill ∨ sig = sigstop
    · rw [if_pos hcatch]
      exact .inl rfl
    · rw [if_neg hcatch]
      cases hσ : s.signals s.rq.current with
      | none => exact .inl rfl
      | some σ =>
        cases act with
        | none => exact .inl rfl
        | some new =>
          refine .inr ⟨sig.toNat, σ, new, by omega, rfl, ?_, ?_, rfl, rfl⟩
          · rintro heq
            exact hcatch (.inl (by omega))
          · rintro heq
            exact hcatch (.inr (by omega))

theorem view_eq (hσ : s.signals t = some σ) (hcalls : s.calls t = calls) : s.view t = ⟨σ, calls⟩ := by
  rw [view, hσ, hcalls]
  rfl

theorem view_congr (hσ : s'.signals t = s.signals t) (hcalls : s'.calls t = s.calls t) :
    s'.view t = s.view t := by
  rw [view, hσ, hcalls]
  rfl

theorem view_stay (hsome : (s.signals t).isSome) (hσ : s'.signals t = s.signals t)
    (hcalls : s'.calls t = s.calls t)
    (hother : ¬a.Moves t) : (s'.signals t).isSome ∧ TaskSignals.Step t (s.view t) a (s'.view t) := by
  rw [view_congr hσ hcalls, hσ]
  exact ⟨hsome, .stay hother⟩

theorem view_move {σ' : SignalStruct} {calls' : List SignalCall} (hσ : s.signals t = some σ)
    (hcalls : s.calls t = calls)
    (hσ' : s'.signals t = some σ') (hcalls' : s'.calls t = calls')
    (h : TaskSignals.Step t ⟨σ, calls⟩ a ⟨σ', calls'⟩) :
    (s'.signals t).isSome ∧ TaskSignals.Step t (s.view t) a (s'.view t) := by
  rw [view_eq hσ hcalls, view_eq hσ' hcalls', hσ']
  exact ⟨rfl, h⟩

theorem view_step (hsome : (s.signals t).isSome) (h : Step s a s') :
    (s'.signals t).isSome ∧ TaskSignals.Step t (s.view t) a (s'.view t) := by
  obtain ⟨σ, hσ⟩ := Option.isSome_iff_exists.mp hsome
  cases h with
  | @killTask target sig =>
    have hother : ¬(SignalAction.killTask target sig).Moves t := by
      simp
    rcases s.killTask_cases target sig with ⟨-, heq⟩ | ⟨-, hlo, hhi, -, σ', rq, hσ', heq⟩
    · rw [heq]
      exact view_stay hsome rfl rfl hother
    · rw [heq]
      by_cases ht : t = target
      · subst ht
        obtain ⟨n, rfl⟩ := Int.eq_ofNat_of_zero_le hlo
        exact view_move hσ' rfl signals_setSignals_self rfl (.kill (by omega))
      · exact view_stay hsome (signals_setSignals_of_ne ht) rfl hother
  | schedKillTask => exact view_stay hsome rfl rfl (by simp)
  | @sigprocmask how set hfree =>
    have hother : ¬(SignalAction.sigprocmask s.rq.current how set).Moves t := by
      simp
    rcases s.sigprocmask_cases how set with heq | ⟨σ', blocked, hσ', heq⟩
    · rw [heq]
      exact view_stay hsome rfl rfl hother
    · rw [heq]
      by_cases ht : t = s.rq.current
      · subst ht
        exact view_move hσ' rfl signals_setSignals_self rfl .mask
      · exact view_stay hsome (signals_setSignals_of_ne ht) rfl hother
  | @sigaction sig act hfree =>
    have hother : ¬(SignalAction.sigaction s.rq.current sig act).Moves t := by
      simp
    rcases s.sigactionSyscall_cases sig act with heq | ⟨n, σ', new, rfl, rfl, hkill, hstop, hσ', heq⟩
    · rw [heq]
      exact view_stay hsome rfl rfl hother
    · rw [heq]
      by_cases ht : t = s.rq.current
      · subst ht
        exact view_move hσ' rfl signals_setSignals_self rfl (.action hkill hstop)
      · exact view_stay hsome (signals_setSignals_of_ne ht) rfl hother
  | doSignal hfree =>
    by_cases ht : t = s.rq.current
    · subst ht
      unfold doSignal
      rw [hσ]
      dsimp only
      split
      next hnone => exact view_move hσ rfl hσ rfl (.idle hnone)
      next hsome => exact view_move hσ rfl hσ calls_setCalls_self (.enter hfree hsome)
    · have hother : ¬(SignalAction.doSignal s.rq.current).Moves t := by
        simp [Ne.symm ht]
      unfold doSignal
      split
      · exact view_stay hsome rfl rfl hother
      · split
        · exact view_stay hsome rfl rfl hother
        · exact view_stay hsome rfl (calls_setCalls_of_ne ht) hother
  | next hcall hloop hsig hclear =>
    by_cases ht : t = s.rq.current
    · subst ht
      exact view_move hσ hcall hσ calls_setCalls_self (.next hloop hsig hclear)
    · exact view_stay hsome rfl (calls_setCalls_of_ne ht)
        (by simp [Ne.symm ht])
  | @take σ' c calls hsignals hcall hloop hsig hset =>
    obtain ⟨rq, heq⟩ := s.take_eq σ' c calls
    rw [heq]
    by_cases ht : t = s.rq.current
    · subst ht
      exact view_move hsignals hcall signals_setSignals_self calls_setCalls_self (.take hloop hsig hset)
    · exact view_stay hsome (signals_setSignals_of_ne ht) (calls_setCalls_of_ne ht)
        (by simp [Ne.symm ht])
  | ret hcall hloop hsig =>
    by_cases ht : t = s.rq.current
    · subst ht
      exact view_move hσ hcall hσ calls_setCalls_self (.ret hloop hsig)
    · exact view_stay hsome rfl (calls_setCalls_of_ne ht)
        (by simp [Ne.symm ht])
  | handlerReturn hcall hmode =>
    by_cases ht : t = s.rq.current
    · subst ht
      exact view_move hσ hcall hσ calls_setCalls_self (.handlerReturn hmode)
    · exact view_stay hsome rfl (calls_setCalls_of_ne ht)
        (by simp [Ne.symm ht])
  | sched => exact view_stay hsome rfl rfl (by simp)

end Signals

end GcAos.Sched
