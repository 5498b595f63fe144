import GcAos.Lib.Exec
import GcAos.Sched.SignalView

/-! Deliveries in the runs of signals. -/

namespace GcAos.Sched
open Lib

/-! ## Sets of signals -/

section Sets

variable {x : Sigset} {σ : SignalStruct} {sig i : ℕ}

theorem getLsbD_sigBit (h : sig < nsig) : (sigBit sig).getLsbD i = decide (i = sig) := by
  have hlt : sig < 64 := h.trans (by decide)
  have htwo := BitVec.getLsbD_twoPow (w := 64) sig i
  rw [decide_eq_true hlt, Bool.true_and] at htwo
  exact htwo.trans (decide_eq_decide.mpr eq_comm)

theorem getLsbD_send (h : sig < nsig) :
    (x ||| sigBit sig).getLsbD i = (x.getLsbD i || decide (i = sig)) := by
  rw [BitVec.getLsbD_or, getLsbD_sigBit h]

theorem getLsbD_diff {y : Sigset} : (x &&& ~~~y).getLsbD i = (x.getLsbD i && !y.getLsbD i) := by
  rw [BitVec.getLsbD_and, BitVec.getLsbD_not]
  cases hx : x.getLsbD i with
  | false => rfl
  | true => simp [BitVec.lt_of_getLsbD hx]

theorem getLsbD_clear (h : sig < nsig) :
    (x &&& ~~~sigBit sig).getLsbD i = (x.getLsbD i && !decide (i = sig)) := by
  rw [getLsbD_diff, getLsbD_sigBit h]

theorem getLsbD_deliverable : (deliverable σ).getLsbD i =
    (σ.pending.getLsbD i && !σ.blocked.getLsbD i) :=
  getLsbD_diff

end Sets

/-! ## SIGKILL and SIGSTOP -/

def SignalStruct.Shielded (σ : SignalStruct) : Prop :=
  ∀ sig, sig = sigkill ∨ sig = sigstop → σ.blocked.getLsbD sig = false ∧ σ.actions sig = {}

namespace TaskSignals

variable {t sig : ℕ} {v v' : TaskSignals} {a : SignalAction} {as : List SignalAction}

theorem Step.shielded (h : Step t v a v') (hs : v.state.Shielded) : v'.state.Shielded := by
  cases h with
  | stay => exact hs
  | kill => exact hs
  | mask =>
    intro sig hsig
    refine ⟨?_, (hs sig hsig).2⟩
    have hmember : (sigBit sigkill ||| sigBit sigstop).getLsbD sig = true := by
      rcases hsig with rfl | rfl <;> decide
    rw [getLsbD_diff, hmember, Bool.not_true, Bool.and_false]
  | action hkill hstop =>
    intro sig hsig
    refine ⟨(hs sig hsig).1, ?_⟩
    rcases hsig with rfl | rfl
    · exact (Function.update_of_ne hkill.symm ..).trans (hs _ (.inl rfl)).2
    · exact (Function.update_of_ne hstop.symm ..).trans (hs _ (.inr rfl)).2
  | idle => exact hs
  | enter => exact hs
  | next => exact hs
  | take => exact hs
  | ret => exact hs
  | handlerReturn => exact hs

end TaskSignals

/-! ## One call at a time -/

/-- The loop of the call has still to come to `sig`, which the call has found pending. -/
def SignalCall.ToCome (c : SignalCall) (sig : ℕ) : Prop := c.sig ≤ sig ∧ c.pending.getLsbD sig = true

instance (c : SignalCall) (sig : ℕ) : Decidable (c.ToCome sig) := inferInstanceAs (Decidable (_ ∧ _))

/-- A call in order: what it has still to come to is pending, and when it terminates the task that
is nothing. -/
structure SignalCall.Ok (c : SignalCall) (σ : SignalStruct) : Prop where
  pending : ∀ i < nsig, c.ToCome i → σ.pending.getLsbD i = true
  last : c.mode = .exit → ∀ i < nsig, ¬c.ToCome i

namespace TaskSignals

/-- `t` calls `do_signal` only outside of other calls of it, and no signal is left when it is
terminated. -/
structure Careful (t : ℕ) (v : TaskSignals) (a : SignalAction) : Prop where
  enter : a = .doSignal t → v.calls = []
  last : ∀ c calls, v.calls = c :: calls → a = .take t c.sig → v.state.Terminates c.sig →
    ∀ i < nsig, c.sig < i → c.pending.getLsbD i = false

def Single (v : TaskSignals) : Prop := v.calls = [] ∨ ∃ c, v.calls = [c] ∧ c.Ok v.state

variable {t sig : ℕ} {v v' : TaskSignals} {a : SignalAction} {as : List SignalAction}

theorem Step.single (h : Step t v a v') (hcare : v.Careful t a) (hs : v.Single) : v'.Single := by
  cases h with
  | stay => exact hs
  | kill hsig =>
    refine hs.imp_right fun ⟨c, hc, hok⟩ => ⟨c, hc, fun i hi hcome => ?_, hok.last⟩
    rw [getLsbD_send hsig, hok.pending i hi hcome, Bool.true_or]
  | mask => exact hs.imp_right fun ⟨c, hc, hok⟩ => ⟨c, hc, hok.pending, hok.last⟩
  | action => exact hs.imp_right fun ⟨c, hc, hok⟩ => ⟨c, hc, hok.pending, hok.last⟩
  | idle => exact hs
  | enter =>
    refine .inr ⟨_, congrArg _ (hcare.enter rfl), fun i _ hcome => ?_, CallMode.noConfusion⟩
    exact (Bool.and_eq_true_iff.mp (getLsbD_deliverable.symm.trans hcome.2)).1
  | @next σ c calls hloop hsig hclear =>
    rcases hs with hs | ⟨d, hd, hok⟩
    · cases hs
    · obtain ⟨rfl, rfl⟩ := List.cons.inj hd
      refine .inr ⟨_, rfl, fun i hi hcome => hok.pending i hi ⟨Nat.le_of_succ_le hcome.1, hcome.2⟩,
        fun hexit => ?_⟩
      exact CallMode.noConfusion (hloop.symm.trans hexit)
  | @take σ c calls hloop hsig hset =>
    rcases hs with hs | ⟨d, hd, hok⟩
    · cases hs
    · obtain ⟨rfl, rfl⟩ := List.cons.inj hd
      refine .inr ⟨_, rfl, fun i hi hcome => ?_, fun hexit i hi hcome => ?_⟩
      · have hne : i ≠ c.sig := (Nat.lt_of_succ_le hcome.1).ne'
        rw [getLsbD_clear hsig, hok.pending i hi ⟨Nat.le_of_succ_le hcome.1, hcome.2⟩,
          decide_eq_false hne]
        rfl
      · have hterm : σ.Terminates c.sig := SignalStruct.mode_eq_exit.mp hexit
        have hnone := hcare.last c [] rfl rfl hterm i hi (Nat.lt_of_succ_le hcome.1)
        exact Bool.noConfusion (hnone.symm.trans hcome.2)
  | @ret σ c calls hloop hsig =>
    rcases hs with hs | ⟨d, hd, hok⟩
    · cases hs
    · exact .inl (List.cons.inj hd).2
  | @handlerReturn σ c calls hmode =>
    rcases hs with hs | ⟨d, hd, hok⟩
    · cases hs
    · obtain ⟨rfl, rfl⟩ := List.cons.inj hd
      exact .inr ⟨_, rfl, hok.pending, CallMode.noConfusion⟩

/-- Steps that are careful. -/
def CarefulStep (t : ℕ) (v : TaskSignals) (a : SignalAction) (v' : TaskSignals) : Prop :=
  Step t v a v' ∧ v.Careful t a

theorem Step.take_le_kill (h : Step t v a v') (sig : ℕ) (hs : v.Single) :
    (if a = .take t sig then 1 else 0) + (v'.state.pending.getLsbD sig).toNat ≤
      (if a = .killTask t sig then 1 else 0) + (v.state.pending.getLsbD sig).toNat := by
  cases h with
  | stay hother =>
    have hne : a ≠ .take t sig := by
      rintro rfl
      exact hother (.inr (.inl (decide_eq_true rfl)))
    rw [if_neg hne]
    omega
  | @kill _ n hn =>
    rw [getLsbD_send hn, if_neg SignalAction.noConfusion]
    by_cases heq : sig = n
    · rw [heq, if_pos rfl]
      have := (v.state.pending.getLsbD n || decide (n = n)).toNat_le
      omega
    · rw [decide_eq_false heq, Bool.or_false]
      omega
  | @take σ c calls hloop hsig hset =>
    dsimp only
    rw [getLsbD_clear hsig]
    by_cases heq : sig = c.sig
    · have hpending : σ.pending.getLsbD c.sig = true := by
        rcases hs with hs | ⟨d, hd, hok⟩
        · cases hs
        · obtain ⟨rfl, rfl⟩ := List.cons.inj hd
          exact hok.pending c.sig hsig ⟨le_rfl, hset⟩
      subst heq
      simp [hpending]
    · have hne : SignalAction.take t c.sig ≠ .take t sig := fun h =>
        heq (SignalAction.take.inj h).2.symm
      rw [if_neg hne, decide_eq_false heq, Bool.not_false, Bool.and_true]
      omega
  | mask | action | idle | enter | next | ret | handlerReturn => simp

theorem take_le_kill (h : Exec (CarefulStep t) v as v') (sig : ℕ) (hs : v.Single) :
    as.count (.take t sig) + (v'.state.pending.getLsbD sig).toNat ≤
      as.count (.killTask t sig) + (v.state.pending.getLsbD sig).toNat := by
  induction h with
  | nil => simp
  | @cons v u v' a as hst _ ih =>
    obtain ⟨hstep, hcare⟩ := hst
    have hrest := ih (hstep.single hcare hs)
    have hone := hstep.take_le_kill sig hs
    rw [List.count_cons, List.count_cons]
    simp only [beq_iff_eq]
    omega

/-! ## The course of a call -/

theorem Step.call (h : Step t v a v') {c : SignalCall} (hcalls : v.calls = [c])
    (hno : a ≠ .doSignal t) :
    (a.Loops t = false ∧ ∃ d, v'.calls = [d] ∧ d.sig = c.sig ∧ d.pending = c.pending) ∨
    ((a = .next t c.sig ∧ c.pending.getLsbD c.sig = false ∨
      a = .take t c.sig ∧ c.pending.getLsbD c.sig = true) ∧
      ∃ d, v'.calls = [d] ∧ d.sig = c.sig + 1 ∧ d.pending = c.pending) ∨
    (a.Loops t = false ∧ nsig ≤ c.sig ∧ v'.calls = []) := by
  cases h with
  | stay hother => exact .inl ⟨Bool.eq_false_iff.mpr fun h => hother (.inr (.inl h)), c, hcalls,
      rfl, rfl⟩
  | kill => exact .inl ⟨rfl, c, hcalls, rfl, rfl⟩
  | mask => exact .inl ⟨rfl, c, hcalls, rfl, rfl⟩
  | action => exact .inl ⟨rfl, c, hcalls, rfl, rfl⟩
  | idle => exact absurd rfl hno
  | enter => exact absurd rfl hno
  | next _ _ hclear =>
    obtain ⟨rfl, rfl⟩ := List.cons.inj hcalls
    exact .inr (.inl ⟨.inl ⟨rfl, hclear⟩, _, rfl, rfl, rfl⟩)
  | take _ _ hset =>
    obtain ⟨rfl, rfl⟩ := List.cons.inj hcalls
    exact .inr (.inl ⟨.inr ⟨rfl, hset⟩, _, rfl, rfl, rfl⟩)
  | ret _ hsig =>
    obtain ⟨rfl, rfl⟩ := List.cons.inj hcalls
    exact .inr (.inr ⟨rfl, hsig, rfl⟩)
  | handlerReturn =>
    obtain ⟨rfl, rfl⟩ := List.cons.inj hcalls
    exact .inl ⟨rfl, _, rfl, rfl, rfl⟩

theorem Step.no_call (h : Step t v a v') (hcalls : v.calls = []) (hno : a ≠ .doSignal t) :
    a.Loops t = false ∧ v'.calls = [] := by
  cases h with
  | stay hother => exact ⟨Bool.eq_false_iff.mpr fun h => hother (.inr (.inl h)), hcalls⟩
  | kill => exact ⟨rfl, hcalls⟩
  | mask => exact ⟨rfl, hcalls⟩
  | action => exact ⟨rfl, hcalls⟩
  | idle => exact absurd rfl hno
  | enter => exact absurd rfl hno
  | next => cases hcalls
  | take => cases hcalls
  | ret => cases hcalls
  | handlerReturn => cases hcalls

theorem ne_take_of_loops (h : a.Loops t = false) : a ≠ .take t sig := by
  rintro rfl
  exact absurd h (by simp)

/-- No call has `sig` before it. -/
def Passed (v : TaskSignals) (sig : ℕ) : Prop := v.calls = [] ∨ ∃ c, v.calls = [c] ∧ ¬c.ToCome sig

theorem Step.passed (h : Step t v a v') (hno : a ≠ .doSignal t) (hv : v.Passed sig) :
    v'.Passed sig ∧ a ≠ .take t sig := by
  rcases hv with hcalls | ⟨c, hcalls, hcome⟩
  · obtain ⟨hloops, hcalls'⟩ := h.no_call hcalls hno
    exact ⟨.inl hcalls', ne_take_of_loops hloops⟩
  · rcases h.call hcalls hno with ⟨hloops, d, hd, hsig, hpending⟩ | ⟨hact, d, hd, hsig, hpending⟩ |
      ⟨hloops, -, hnil⟩
    · refine ⟨.inr ⟨d, hd, fun h => hcome ?_⟩, ne_take_of_loops hloops⟩
      exact ⟨hsig ▸ h.1, hpending ▸ h.2⟩
    · refine ⟨.inr ⟨d, hd, fun h => hcome ⟨?_, hpending ▸ h.2⟩⟩, ?_⟩
      · exact Nat.le_of_succ_le (hsig.symm.le.trans h.1)
      · rintro rfl
        rcases hact with ⟨heq, -⟩ | ⟨heq, hset⟩
        · cases heq
        · obtain rfl := (SignalAction.take.inj heq).2
          exact hcome ⟨le_rfl, hset⟩
    · exact ⟨.inl hnil, ne_take_of_loops hloops⟩

theorem passed_run (h : Exec (Step t) v as v') (hno : .doSignal t ∉ as) (hv : v.Passed sig) :
    as.count (.take t sig) = 0 := by
  have hrun := h.restrict (P := (· ≠ .doSignal t)) fun a ha heq => hno (heq ▸ ha)
  have hne := hrun.forall_mem (I := fun v => v.Passed sig) (P := (· ≠ .take t sig))
    (fun _ _ _ hI hst => hst.1.passed hst.2 hI) hv
  exact List.count_eq_zero.mpr fun hmem => hne _ hmem rfl

def Over (v : TaskSignals) : Prop := ∀ c ∈ v.calls.head?, c.mode = .exit

theorem call_run {c : SignalCall} (h : Exec (CarefulStep t) v as v') (hs : v.Single)
    (hcalls : v.calls = [c])
    (hno : .doSignal t ∉ as) (hsig : sig < nsig) (hcome : c.ToCome sig) :
    as.count (.take t sig) = (if sig < c.sig + as.countP (·.Loops t) then 1 else 0) ∧
      (v'.Over → sig < c.sig + as.countP (·.Loops t)) := by
  induction h generalizing c with
  | nil v =>
    rw [List.countP_nil, Nat.add_zero, if_neg (by have := hcome.1; omega)]
    refine ⟨rfl, fun hover => ?_⟩
    obtain hnil | ⟨d, hd, hok⟩ := hs
    · rw [hnil] at hcalls
      cases hcalls
    · obtain ⟨rfl, -⟩ := List.cons.inj (hd.symm.trans hcalls)
      exact absurd hcome (hok.last (hover d (by rw [hd]; rfl)) sig hsig)
  | @cons v u v' a as hst hrun ih =>
    obtain ⟨hstep, hcare⟩ := hst
    have hno₁ : a ≠ .doSignal t := (List.ne_of_not_mem_cons hno).symm
    have hno₂ := List.not_mem_of_not_mem_cons hno
    have hs' := hstep.single hcare hs
    rw [List.count_cons, List.countP_cons]
    rcases hstep.call hcalls hno₁ with
      ⟨hloops, d, hd, hdsig, hpending⟩ | ⟨hact, d, hd, hdsig, hpending⟩ | ⟨hloops, hlast, -⟩
    · obtain ⟨hcount, hover⟩ := ih hs' hd hno₂ ⟨hdsig ▸ hcome.1, hpending ▸ hcome.2⟩
      have hne : a ≠ .take t sig := ne_take_of_loops hloops
      rw [beq_false_of_ne hne, hloops, ← hdsig]
      exact ⟨hcount, hover⟩
    · have hloops : a.Loops t = true := by
        rcases hact with ⟨rfl, -⟩ | ⟨rfl, -⟩ <;> exact decide_eq_true rfl
      rw [hloops, if_pos rfl]
      by_cases heq : c.sig = sig
      · have htake : a = .take t sig := by
          rcases hact with ⟨-, hclear⟩ | ⟨htake, -⟩
          · rw [heq, hcome.2] at hclear
            cases hclear
          · rw [htake, heq]
        have hrest : as.count (.take t sig) = 0 := passed_run (hrun.mono fun _ _ _ h => h.1) hno₂
          (.inr ⟨d, hd, fun h => absurd h.1 (by omega)⟩)
        rw [hrest, htake, beq_self_eq_true, if_pos rfl, if_pos (by omega)]
        exact ⟨rfl, fun _ => by omega⟩
      · have hne : a ≠ .take t sig := by
          rintro rfl
          rcases hact with ⟨h, -⟩ | ⟨h, -⟩
          · cases h
          · exact heq (SignalAction.take.inj h).2.symm
        obtain ⟨hcount, hover⟩ := ih hs' hd hno₂ ⟨by have := hcome.1; omega, hpending ▸ hcome.2⟩
        rw [beq_false_of_ne hne, hcount, hdsig]
        have hsum : c.sig + 1 + as.countP (·.Loops t) = c.sig + (as.countP (·.Loops t) + 1) := by omega
        rw [hdsig, hsum] at hover
        rw [hsum]
        exact ⟨rfl, hover⟩
    · exact absurd hcome.1 (by omega)

/-! ## Before the call -/

theorem Step.pending (h : Step t v a v') (hne : a ≠ .take t sig)
    (hpending : v.state.pending.getLsbD sig = true) :
    v'.state.pending.getLsbD sig = true := by
  cases h with
  | kill hn =>
    rw [getLsbD_send hn, hpending]
    rfl
  | @take σ c calls _ hsig _ =>
    have hsigne : sig ≠ c.sig := fun heq => hne (heq ▸ rfl)
    rw [getLsbD_clear hsig, decide_eq_false hsigne]
    simpa using hpending
  | stay | mask | action | idle | enter | next | ret | handlerReturn => exact hpending

theorem wait_run (h : Exec (fun v a v' => CarefulStep t v a v' ∧
    (a = .doSignal t → v.state.blocked.getLsbD sig = true))
    v as v') (hpending : v.state.pending.getLsbD sig = true) (hpassed : v.Passed sig) :
    v'.state.pending.getLsbD sig = true ∧ v'.Passed sig := by
  refine h.invariant (I := fun v => v.state.pending.getLsbD sig = true ∧ v.Passed sig) ?_
    ⟨hpending, hpassed⟩
  rintro v a u ⟨hpending, hpassed⟩ ⟨⟨hstep, hcare⟩, hblocked⟩
  by_cases ha : a = .doSignal t
  · subst ha
    cases hstep with
    | stay hother => exact absurd (.inl rfl) hother
    | idle => exact ⟨hpending, hpassed⟩
    | enter =>
      refine ⟨hpending, .inr ⟨_, congrArg _ (hcare.enter rfl), fun hcome => ?_⟩⟩
      have hset := hcome.2
      rw [getLsbD_deliverable, hblocked rfl, Bool.not_true, Bool.and_false] at hset
      cases hset
  · obtain ⟨hpassed', hne⟩ := hstep.passed ha hpassed
    exact ⟨hstep.pending hne hpending, hpassed'⟩

theorem Step.begins (h : Step t v (.doSignal t) v') (hset : (deliverable v.state).getLsbD sig = true) :
    v' = ⟨v.state, ⟨deliverable v.state, 1, .loop⟩ :: v.calls⟩ := by
  cases h with
  | stay hother => exact absurd (.inl rfl) hother
  | idle hnone =>
    have hzero : (0 : Sigset).getLsbD sig = false := BitVec.getLsbD_zero
    rw [hnone, hzero] at hset
    cases hset
  | enter => rfl

/-! ## Termination -/

def Exited (v : TaskSignals) : Prop := ∃ c calls, v.calls = c :: calls ∧ c.mode = .exit

theorem Step.exited (h : Step t v a v') (hv : v.Exited) : v'.Exited := by
  obtain ⟨d, ds, hd, hexit⟩ := hv
  cases h with
  | stay | kill | mask | action | idle => exact ⟨d, ds, hd, hexit⟩
  | enter hfree =>
    have hhandler : d.mode = .handler := hfree d (by rw [hd]; rfl)
    exact CallMode.noConfusion (hhandler.symm.trans hexit)
  | next hloop | take hloop | ret hloop =>
    obtain ⟨rfl, rfl⟩ := List.cons.inj hd
    exact CallMode.noConfusion (hloop.symm.trans hexit)
  | handlerReturn hmode =>
    obtain ⟨rfl, rfl⟩ := List.cons.inj hd
    exact CallMode.noConfusion (hmode.symm.trans hexit)

/-- A call above `outer` has the signal `e` before it, which terminates the task. -/
def Doomed (v : TaskSignals) (outer : List SignalCall) (e : ℕ) : Prop :=
  ∃ inner c, v.calls = inner ++ c :: outer ∧ c.ToCome e ∧ v.state.Terminates e

theorem Step.doomed {outer : List SignalCall} {e : ℕ} (h : Step t v a v') (he : e < nsig)
    (hact : e = sigkill ∨ ∀ act, a ≠ .sigaction t e (some act)) (hv : v.Doomed outer e) :
    v'.Exited ∨ v'.Doomed outer e := by
  obtain ⟨inner, d, hcalls, hcome, hterm⟩ := hv
  cases h with
  | stay | kill | mask | idle => exact .inr ⟨inner, d, hcalls, hcome, hterm⟩
  | @action _ sig act hkill hstop =>
    have hne : e ≠ sig := by
      rintro rfl
      exact hact.elim hkill fun h => h act rfl
    have hsame : Function.update v.state.actions sig act e = v.state.actions e :=
      Function.update_of_ne hne ..
    exact .inr ⟨inner, d, hcalls, hcome, (congrArg Sigaction.saHandler hsame).trans hterm.1, hterm.2⟩
  | enter => exact .inr ⟨_ :: inner, d, congrArg _ hcalls, hcome, hterm⟩
  | @next σ c calls hloop hsig hclear =>
    cases inner with
    | nil =>
      obtain ⟨rfl, rfl⟩ := List.cons.inj hcalls
      have hne : c.sig ≠ e := by
        rintro rfl
        exact Bool.noConfusion (hclear.symm.trans hcome.2)
      exact .inr ⟨[], _, rfl, ⟨Nat.lt_of_le_of_ne hcome.1 hne, hcome.2⟩, hterm⟩
    | cons i inner =>
      obtain ⟨rfl, rfl⟩ := List.cons.inj hcalls
      exact .inr ⟨_ :: inner, d, rfl, hcome, hterm⟩
  | @take σ c calls hloop hsig hset =>
    cases inner with
    | nil =>
      obtain ⟨rfl, rfl⟩ := List.cons.inj hcalls
      by_cases heq : c.sig = e
      · exact .inl ⟨_, _, rfl, SignalStruct.mode_eq_exit.mpr (heq ▸ hterm)⟩
      · exact .inr ⟨[], _, rfl, ⟨Nat.lt_of_le_of_ne hcome.1 heq, hcome.2⟩, hterm⟩
    | cons i inner =>
      obtain ⟨rfl, rfl⟩ := List.cons.inj hcalls
      exact .inr ⟨_ :: inner, d, rfl, hcome, hterm⟩
  | ret hloop hsig =>
    cases inner with
    | nil =>
      obtain ⟨rfl, rfl⟩ := List.cons.inj hcalls
      exact absurd hcome.1 (by omega)
    | cons i inner =>
      obtain ⟨rfl, rfl⟩ := List.cons.inj hcalls
      exact .inr ⟨inner, d, rfl, hcome, hterm⟩
  | handlerReturn hmode =>
    cases inner with
    | nil =>
      obtain ⟨rfl, rfl⟩ := List.cons.inj hcalls
      exact .inr ⟨[], _, rfl, hcome, hterm⟩
    | cons i inner =>
      obtain ⟨rfl, rfl⟩ := List.cons.inj hcalls
      exact .inr ⟨_ :: inner, d, rfl, hcome, hterm⟩

end TaskSignals

/-! ## Runs of all tasks -/

namespace Signals

variable {s s' : Signals} {t sig : ℕ} {as : List SignalAction}

/-- Steps in which `t` is careful. -/
def CarefulStep (t : ℕ) (s : Signals) (a : SignalAction) (s' : Signals) : Prop :=
  Step s a s' ∧ (s.view t).Careful t a

/-- The actions `as` of a call whose loop stands at `n` take `sig` once, when the loop comes to it,
and in the state `s` after them the call is not over without that. -/
def TakesOnce (t sig n : ℕ) (as : List SignalAction) (s : Signals) : Prop :=
  as.count (.take t sig) = (if sig < n + as.countP (·.Loops t) then 1 else 0) ∧
    ((s.view t).Over → sig < n + as.countP (·.Loops t))

/-- In the careful runs from `s₀` the signal `sig` is taken for `t` at most as often as it is sent.
When it is sent, a call in progress that has still to come to it takes it once, and otherwise the
first later call in which it is not blocked. -/
def DeliversOnce (s₀ : Signals) (t sig : ℕ) : Prop :=
  ∀ as s, Exec (CarefulStep t) s₀ as s →
    as.count (.take t sig) + ((s.view t).state.pending.getLsbD sig).toNat ≤ as.count (.killTask t sig) ∧
    ((s.killTask t sig).1 = 0 →
      (∀ c ∈ s.calls t, c.ToCome sig → ∀ bs u, Exec (CarefulStep t) (s.killTask t sig).2 bs u →
        .doSignal t ∉ bs →
        TakesOnce t sig c.sig bs u) ∧
      ((∀ c ∈ s.calls t, ¬c.ToCome sig) → ∀ bs u cs w,
        Exec (fun s a s' => CarefulStep t s a s' ∧
          (a = .doSignal t → (s.view t).state.blocked.getLsbD sig = true))
          (s.killTask t sig).2 bs u →
        (u.view t).state.blocked.getLsbD sig = false → Exec (CarefulStep t) u (.doSignal t :: cs) w →
        .doSignal t ∉ cs → TakesOnce t sig 1 cs w))

/-- After `sched_kill_task` the next call of `do_signal` does not return, if it finds a signal `e`
that terminates the task and no handler gives `e` another action: it has still to come to `e`, or
the task is in `exit_task`. -/
def KillTerminates (s₀ : Signals) (t : ℕ) : Prop :=
  ∀ as s pid bs u, Exec Step s₀ as s → getTaskByPid s.rq pid = t → (s.schedKillTask pid).1 = 0 →
    Exec Step (s.schedKillTask pid).2 bs u → .doSignal t ∉ bs →
    ∀ e, 1 ≤ e → e < nsig → (deliverable (u.view t).state).getLsbD e = true →
      (u.view t).state.Terminates e →
    ∀ cs w, Exec Step u (.doSignal t :: cs) w → (e = sigkill ∨ ∀ act, .sigaction t e (some act) ∉ cs) →
      (w.view t).Exited ∨ (w.view t).Doomed (u.calls t) e

/-- What the loop has done when it has taken the signal: a handler has been entered, or the default
action has set the state of the task or sent it to `exit_task`. -/
structure Acts (s : Signals) (t sig : ℕ) (s' : Signals) : Prop where
  call : ∃ c calls, s'.calls t = c :: calls ∧ c.sig = sig + 1 ∧ c.mode = (s.view t).state.mode sig
  kept : ((s.view t).state.actions sig).saHandler ≠ sigDfl ∨ defaultAction sig = .ignore → s'.rq = s.rq
  continued : ((s.view t).state.actions sig).saHandler = sigDfl → defaultAction sig = .cont →
    (s'.rq.tasks t).state = .running
  stopped : ((s.view t).state.actions sig).saHandler = sigDfl → defaultAction sig = .stop →
    (s'.rq.tasks t).state = .stopped
  terminated : (s.view t).state.Terminates sig →
    (s'.rq.tasks t).state = .zombie ∧ (s'.rq.tasks t).exitCode = sig

theorem sigDefaultCont_state (s : Signals) :
    (s.sigDefaultCont.rq.tasks s.rq.current).state = .running := by
  simp [sigDefaultCont, Rq.tasks_modify_self]

theorem sigDefaultStop_state (s : Signals) : (s.sigDefaultStop.rq.tasks s.rq.current).state = .stopped :=
  (schedule_tasks _ _).1.trans (congrArg TaskStruct.state Rq.tasks_modify_self)

theorem sigDefaultTerm_state (s : Signals) (sig : ℕ) :
    ((s.sigDefaultTerm sig).rq.tasks s.rq.current).state = .zombie ∧
      ((s.sigDefaultTerm sig).rq.tasks s.rq.current).exitCode = sig := by
  have hleft := congrFun (dequeueTask_relinked (s.rq.modify s.rq.current fun x =>
    { x with exitCode := sig, state := .zombie, flags := x.flags ||| pfExiting }) s.rq.current).info
      s.rq.current
  unfold Rq.info at hleft
  rw [Rq.tasks_modify_self] at hleft
  obtain ⟨hstate, hcode⟩ := schedule_tasks (dequeueTask (s.rq.modify s.rq.current fun x =>
    { x with exitCode := sig, state := .zombie, flags := x.flags ||| pfExiting }) s.rq.current)
      s.rq.current
  exact ⟨hstate.trans (congrArg TaskStruct.state hleft :), hcode.trans (congrArg TaskStruct.exitCode hleft :)⟩

theorem acts_of_take (h : Step s (.take t sig) s') : s.Acts t sig s' := by
  cases h with
  | @take σ c calls hsignals hcall hloop hsig hset =>
    have hview : (s.view s.rq.current).state = σ := by rw [view_eq hsignals hcall]
    have hne {h : ℕ} (hdfl : h = sigDfl) : h ≠ sigIgn := fun hign => absurd (hdfl.symm.trans hign) (by decide)
    obtain ⟨rq, heq⟩ := s.take_eq σ c calls
    refine ⟨⟨{ c with sig := c.sig + 1, mode := σ.mode c.sig }, calls, ?_, rfl, ?_⟩, ?_, ?_, ?_, ?_⟩
    · rw [heq]
      exact calls_setCalls_self
    · rw [hview]
    all_goals
      rw [hview]
      unfold Signals.take
      dsimp only
    · rintro (hcaught | hact)
      · rw [if_neg hcaught]
        split <;> rfl
      · rw [hact]
        split_ifs <;> rfl
    · intro hdfl hact
      rw [if_neg (hne hdfl), if_pos hdfl, hact]
      exact sigDefaultCont_state _
    · intro hdfl hact
      rw [if_neg (hne hdfl), if_pos hdfl, hact]
      exact sigDefaultStop_state _
    · rintro ⟨hdfl, hact⟩
      rw [if_neg (hne hdfl), if_pos hdfl, hact]
      exact sigDefaultTerm_state _ _

theorem view_run {P : TaskSignals → SignalAction → Prop} (hsome : (s.signals t).isSome)
    (h : Exec (fun s a s' => Step s a s' ∧ P (s.view t) a) s as s') :
    (s'.signals t).isSome ∧ Exec (fun v a v' => TaskSignals.Step t v a v' ∧ P v a) (s.view t) as
      (s'.view t) := by
  constructor
  · exact h.invariant (I := fun s => (s.signals t).isSome)
      (fun _ _ _ hI hst => (view_step hI hst.1).1) hsome
  · refine h.refine (I := fun s => (s.signals t).isSome) (f := fun s => s.view t)
      (fun _ _ _ hI hst => ?_) hsome
    obtain ⟨hI', hstep⟩ := view_step hI hst.1
    exact ⟨hI', hstep, hst.2⟩

/-- No signal has been sent, and all actions are the default ones. -/
def Fresh (s : Signals) : Prop := (∀ t σ, s.signals t = some σ → σ = {}) ∧ ∀ t, s.calls t = []

theorem signalInit_fresh (hs : s.Fresh) (u : ℕ) : (s.signalInit u).Fresh := by
  have hset (σ : SignalStruct) (hσ : σ = {}) : (s.setSignals u σ).Fresh := by
    refine ⟨fun t τ hτ => ?_, hs.2⟩
    by_cases ht : t = u
    · subst ht
      rw [← Option.some.inj (signals_setSignals_self.symm.trans hτ)]
      exact hσ
    · exact hs.1 t τ ((signals_setSignals_of_ne ht).symm.trans hτ)
  unfold signalInit
  cases hσ : s.signals u with
  | none =>
    dsimp only
    split
    · exact hset {} rfl
    · exact hs
  | some σ =>
    obtain rfl := hs.1 u σ hσ
    refine hset _ ?_
    congr 1
    funext i
    exact ite_self _

theorem start_fresh (rq : Rq) (tasks : List ℕ) : (start rq tasks).Fresh := by
  unfold start
  generalize hs : ({ rq, signals := fun _ => none, sigPoolIdx := 0, calls := fun _ => [] } :
    Signals) = s
  have hfresh : s.Fresh := by
    subst hs
    exact ⟨fun _ _ h => (by cases h), fun _ => rfl⟩
  clear hs
  induction tasks generalizing s with
  | nil => exact hfresh
  | cons u tasks ih => exact ih _ (signalInit_fresh hfresh u)

theorem killTask_zero (h : (s.killTask t sig).1 = 0) : sig < nsig ∧ (s.signals t).isSome ∧
    (s.killTask t sig).2.view t =
      ⟨{ (s.view t).state with pending := (s.view t).state.pending ||| sigBit sig }, s.calls t⟩ := by
  rcases s.killTask_cases t sig with ⟨h', -⟩ | ⟨-, -, hlt, -, σ, rq, hσ, heq⟩
  · rw [h'] at h
    exact absurd h (by decide)
  · refine ⟨by omega, by rw [hσ]; rfl, ?_⟩
    rw [heq, view_eq hσ rfl]
    exact view_eq signals_setSignals_self rfl

theorem careful_run (hsome : (s.signals t).isSome) (h : Exec (CarefulStep t) s as s') :
    (s'.signals t).isSome ∧ Exec (TaskSignals.CarefulStep t) (s.view t) as (s'.view t) :=
  view_run hsome h

theorem step_run (hsome : (s.signals t).isSome) (h : Exec Step s as s') :
    (s'.signals t).isSome ∧ Exec (TaskSignals.Step t) (s.view t) as (s'.view t) := by
  obtain ⟨hsome', hrun⟩ := view_run (P := fun _ _ => True) hsome
      (h.mono fun _ _ _ hst => ⟨hst, trivial⟩)
  exact ⟨hsome', hrun.mono fun _ _ _ hst => hst.1⟩

theorem delivers_once (rq : Rq) (tasks : List ℕ) (hsome : ((start rq tasks).signals t).isSome)
    (hpos : 1 ≤ sig)
    (hsig : sig < nsig) : (start rq tasks).DeliversOnce t sig := by
  intro as s hrun
  obtain ⟨σ₀, hσ₀⟩ := Option.isSome_iff_exists.mp hsome
  have hfresh := start_fresh rq tasks
  have hview : (start rq tasks).view t = ⟨{}, []⟩ := by
    rw [view_eq hσ₀ (hfresh.2 t), hfresh.1 t σ₀ hσ₀]
  obtain ⟨hsome₁, hrun₁⟩ := careful_run hsome hrun
  rw [hview] at hrun₁
  have hstart : TaskSignals.Single ⟨{}, []⟩ := .inl rfl
  have hsingle : (s.view t).Single := hrun₁.invariant (fun _ _ _ hI hst => hst.1.single hst.2 hI) hstart
  refine ⟨?_, fun hkill => ?_⟩
  · have hle := TaskSignals.take_le_kill hrun₁ sig hstart
    have hzero : (0 : Sigset).getLsbD sig = false := BitVec.getLsbD_zero
    exact hle.trans (by rw [hzero]; rfl)
  -- the state in which the signal is sent
  obtain ⟨-, -, hsent⟩ := killTask_zero hkill
  have hstep : TaskSignals.Step t (s.view t) (.killTask t sig) ((s.killTask t sig).2.view t) := by
    rw [hsent]
    exact .kill hsig
  have hsome₂ : ((s.killTask t sig).2.signals t).isSome := (view_step hsome₁ .killTask).1
  have hsingle₂ : ((s.killTask t sig).2.view t).Single :=
    hstep.single ⟨SignalAction.noConfusion, fun _ _ _ h => SignalAction.noConfusion h⟩ hsingle
  have hcalls : ((s.killTask t sig).2.view t).calls = s.calls t := by rw [hsent]
  refine ⟨fun c hc hcome bs u hbs hno => ?_, fun hpassed bs u cs w hbs hopen hcs hno => ?_⟩
  · have hone : s.calls t = [c] := by
      rcases hsingle with hnil | ⟨d, hd, -⟩
      · rw [show s.calls t = [] from hnil] at hc
        cases hc
      · rw [show s.calls t = [d] from hd, List.mem_singleton] at hc
        rw [hc]
        exact hd
    exact TaskSignals.call_run (careful_run hsome₂ hbs).2 hsingle₂ (hcalls.trans hone) hno hsig hcome
  · have hwaits : ((s.killTask t sig).2.view t).Passed sig := by
      rcases hsingle with hnil | ⟨d, hd, -⟩
      · exact .inl (hcalls.trans hnil)
      · exact .inr ⟨d, hcalls.trans hd, hpassed d
          (by rw [show s.calls t = [d] from hd]; exact List.mem_singleton_self d)⟩
    have hpending : ((s.killTask t sig).2.view t).state.pending.getLsbD sig = true := by
      rw [hsent, getLsbD_send hsig, decide_eq_true rfl, Bool.or_true]
    obtain ⟨hsome₃, hrun₃⟩ := view_run
      (P := fun v a => v.Careful t a ∧ (a = .doSignal t → v.state.blocked.getLsbD sig = true)) hsome₂
      (hbs.mono fun _ _ _ h => ⟨h.1.1, h.1.2, h.2⟩)
    have hrun₃ := hrun₃.mono fun _ _ _ h => (⟨⟨h.1, h.2.1⟩, h.2.2⟩ :
        TaskSignals.CarefulStep t _ _ _ ∧ _)
    obtain ⟨hpending₃, -⟩ := TaskSignals.wait_run hrun₃ hpending hwaits
    have hsingle₃ : (u.view t).Single :=
      hrun₃.invariant (fun _ _ _ hI hst => hst.1.1.single hst.1.2 hI) hsingle₂
    have hset : (deliverable (u.view t).state).getLsbD sig = true := by
      rw [getLsbD_deliverable, hpending₃, hopen]
      rfl
    obtain ⟨-, hrun₄⟩ := careful_run hsome₃ hcs
    cases hrun₄ with
    | cons hst hrest =>
      have hbegun := hst.1.begins hset
      have hsingle₄ := hst.1.single hst.2 hsingle₃
      rw [hst.2.enter rfl] at hbegun
      exact TaskSignals.call_run hrest hsingle₄ (congrArg TaskSignals.calls hbegun) hno hsig
        ⟨hpos, hset⟩

theorem shielded_run (rq : Rq) (tasks : List ℕ) (hsome : ((start rq tasks).signals t).isSome)
    (h : Exec Step (start rq tasks) as s) : ∃ σ, s.signals t = some σ ∧ σ.Shielded := by
  obtain ⟨σ₀, hσ₀⟩ := Option.isSome_iff_exists.mp hsome
  obtain ⟨hsome', hrun⟩ := step_run hsome h
  obtain ⟨σ, hσ⟩ := Option.isSome_iff_exists.mp hsome'
  have hstart : ((start rq tasks).view t).state.Shielded := by
    rw [view_eq hσ₀ rfl, (start_fresh rq tasks).1 t σ₀ hσ₀]
    exact fun sig _ => ⟨BitVec.getLsbD_zero, rfl⟩
  have hshield := hrun.invariant (I := fun v => v.state.Shielded)
      (fun _ _ _ hI hst => hst.shielded hI) hstart
  rw [view_eq hσ rfl] at hshield
  exact ⟨σ, hσ, hshield⟩

theorem kill_terminates (rq : Rq) (tasks : List ℕ) (hsome : ((start rq tasks).signals t).isSome) :
    (start rq tasks).KillTerminates t := by
  intro as s pid bs u hrun _ _ hbs _ e hpos he hset hterm cs w hcs hact
  have hsome₁ := (step_run hsome hrun).1
  have hsome₂ : ((s.schedKillTask pid).2.signals t).isSome := hsome₁
  obtain ⟨hsome₃, -⟩ := step_run hsome₂ hbs
  obtain ⟨-, hrun₄⟩ := step_run hsome₃ hcs
  cases hrun₄ with
  | @cons _ v _ _ _ hst hrest =>
    have hbegun := hst.begins hset
    have hdoomed : v.Doomed (u.calls t) e := by
      rw [hbegun]
      exact ⟨[], _, rfl, ⟨hpos, hset⟩, hterm⟩
    have hsafe := hrest.restrict (P := fun a => e = sigkill ∨ ∀ act, a ≠ .sigaction t e (some act))
      fun a ha => hact.imp_right fun h act heq => h act (heq ▸ ha)
    refine hsafe.invariant (I := fun v => v.Exited ∨ v.Doomed (u.calls t) e)
      (fun _ _ _ hI hst => ?_) (.inr hdoomed)
    exact hI.elim (fun hexit => .inl (hst.1.exited hexit)) (hst.1.doomed he hst.2)

end Signals

open Signals

/-- In all runs SIGKILL and SIGSTOP are not blocked and have their default actions. A signal is
delivered once in the runs in which its task is careful, and its action is done then. After
`sched_kill_task` another signal terminates the task, if there is one. -/
theorem signals_delivered {rq : Rq} {tasks : List ℕ} {t : ℕ}
    (hsome : ((start rq tasks).signals t).isSome) :
    (∀ as s, Exec Step (start rq tasks) as s → ∃ σ, s.signals t = some σ ∧ σ.Shielded) ∧
      (∀ sig, 1 ≤ sig → sig < nsig → (start rq tasks).DeliversOnce t sig) ∧
        (start rq tasks).KillTerminates t ∧
          ∀ as s sig s', Exec Step (start rq tasks) as s → Step s (.take t sig) s' → s.Acts t sig s' :=
  ⟨fun _ _ h => shielded_run rq tasks hsome h, fun _ hpos hsig =>
    delivers_once rq tasks hsome hpos hsig,
    kill_terminates rq tasks hsome, fun _ _ _ _ _ htake => acts_of_take htake⟩

def oneTask : Rq := schedule ((schedInit .static).call (.createTask 0 4096))

namespace Signals

variable {s : Signals} {t : ℕ}

theorem doSignal_step (ht : s.rq.current = t) (hcalls : s.calls t = []) :
    Step s (.doSignal t) s.doSignal := by
  subst ht
  refine .doSignal fun c hc => ?_
  rw [hcalls] at hc
  cases hc

theorem take_step {c : SignalCall} {calls : List SignalCall} (ht : s.rq.current = t)
    (hsome : (s.signals t).isSome)
    (hcalls : s.calls t = c :: calls) (hloop : c.mode = .loop) (hsig : c.sig < nsig)
    (hset : c.pending.getLsbD c.sig = true) :
      Step s (.take t c.sig) (s.take (s.view t).state c calls) := by
  subst ht
  obtain ⟨σ, hσ⟩ := Option.isSome_iff_exists.mp hsome
  rw [view_eq hσ rfl]
  exact .take hσ hcalls hloop hsig hset

/-- The task calls `do_signal`, which takes SIGHUP. -/
def hangUp (s : Signals) : Signals :=
  s.doSignal.take (s.doSignal.view 2).state ⟨deliverable (s.view 2).state, 1, .loop⟩ []

end Signals

/-- SIGHUP is sent to the task, and `sched_kill_task` is called for it. -/
def hungUp : Signals := ((start oneTask [2]).killTask 2 1).2

def killed : Signals := (hungUp.schedKillTask 1).2

theorem signals_delivered_hangup : (∃ σ, hungUp.hangUp.signals 2 = some σ ∧ σ.Shielded) ∧
    TakesOnce 2 1 1 [.take 2 1] hungUp.hangUp ∧
      ((killed.hangUp.view 2).Exited ∨ (killed.hangUp.view 2).Doomed [] 1) ∧
        hungUp.doSignal.Acts 2 1 hungUp.hangUp := by
  have hsome : ((start oneTask [2]).signals 2).isSome := by decide
  obtain ⟨hshielded, hdelivers, hterminates, hacts⟩ := signals_delivered hsome
  have hsend : Step (start oneTask [2]) (.killTask 2 1) hungUp := .killTask
  have hcall : Step hungUp (.doSignal 2) hungUp.doSignal := doSignal_step (by decide) rfl
  have htake : Step hungUp.doSignal (.take 2 1) hungUp.hangUp :=
    take_step (c := ⟨deliverable (hungUp.view 2).state, 1, .loop⟩) (by decide) (by decide) rfl rfl
      (by decide)
      (by decide)
  have hcall' : Step killed (.doSignal 2) killed.doSignal := doSignal_step (by decide) rfl
  have htake' : Step killed.doSignal (.take 2 1) killed.hangUp :=
    take_step (c := ⟨deliverable (killed.view 2).state, 1, .loop⟩) (by decide) (by decide) rfl rfl
      (by decide)
      (by decide)
  refine ⟨hshielded _ _ (.cons hsend (.cons hcall (.cons htake (.nil _)))), ?_, ?_,
    hacts _ _ _ _ (.cons hsend (.cons hcall (.nil _))) htake⟩
  · have hcareful : Exec (CarefulStep 2) hungUp [.doSignal 2, .take 2 1] hungUp.hangUp := by
      refine .cons ⟨hcall, fun _ => rfl, fun _ _ _ h => SignalAction.noConfusion h⟩
        (.cons ⟨htake, SignalAction.noConfusion, fun c calls hcalls _ _ => ?_⟩ (.nil _))
      have hone : (hungUp.doSignal.view 2).calls =
          [⟨deliverable (hungUp.view 2).state, 1, .loop⟩] := rfl
      obtain ⟨rfl, -⟩ := List.cons.inj (hcalls.symm.trans hone)
      decide
    exact ((hdelivers 1 (by decide) (by decide) [] _ (.nil _)).2 (by decide)).2
      (fun c hc => by cases hc) [] _
      [.take 2 1] _ (.nil _) (by decide) hcareful (by decide)
  · exact hterminates [.killTask 2 1] hungUp 1 [] killed (.cons hsend (.nil _)) (by decide)
      (by decide) (.nil _)
      (by decide) 1 (by decide) (by decide) (by decide) (by decide) [.take 2 1] _
      (.cons hcall' (.cons htake' (.nil _))) (.inr fun act => by simp)

theorem sched_kill_ignored : ((start oneTask [2]).schedKillTask 1).1 = 0 ∧
    ∃ s, Exec Step (start oneTask [2]) [.schedKillTask 1, .doSignal 2] s ∧ s.calls 2 = [] ∧
      (s.rq.tasks 2).state = .running := by
  have hkill : Step (start oneTask [2]) (.schedKillTask 1)
      ((start oneTask [2]).schedKillTask 1).2 := .schedKillTask
  refine ⟨by decide, ((start oneTask [2]).schedKillTask 1).2.doSignal,
    .cons hkill (.cons ?_ (.nil _)), rfl, by decide⟩
  exact doSignal_step (by decide) rfl

end GcAos.Sched
