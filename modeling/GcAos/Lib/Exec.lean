import Mathlib.Logic.Relation

/-! Runs of a labelled step relation, and the invariant rule for them. -/

namespace GcAos.Lib

variable {σ τ α : Type*}

/-- `Exec step s as t`: the actions `as`, taken in order, lead from `s` to `t`. -/
inductive Exec (step : σ → α → σ → Prop) : σ → List α → σ → Prop
  | nil (s : σ) : Exec step s [] s
  | cons {s u t : σ} {a : α} {as : List α} :
      step s a u → Exec step u as t → Exec step s (a :: as) t

namespace Exec

variable {step : σ → α → σ → Prop} {step' : τ → α → τ → Prop} {s t : σ} {as : List α}

theorem invariant {I : σ → Prop} (hstep : ∀ s a t, I s → step s a t → I t)
    (h : Exec step s as t) (hs : I s) : I t := by
  induction h with
  | nil => exact hs
  | cons hst _ ih => exact ih (hstep _ _ _ hs hst)

theorem forall_mem {I : σ → Prop} {P : α → Prop} (hstep : ∀ s a t, I s → step s a t → I t ∧ P a)
    (h : Exec step s as t) (hs : I s) : ∀ a ∈ as, P a := by
  induction h with
  | nil => exact fun _ ha => absurd ha List.not_mem_nil
  | cons hst _ ih =>
    obtain ⟨hI, hP⟩ := hstep _ _ _ hs hst
    exact List.forall_mem_cons.mpr ⟨hP, ih hI⟩

theorem mono {step' : σ → α → σ → Prop} (hstep : ∀ s a t, step s a t → step' s a t)
    (h : Exec step s as t) :
    Exec step' s as t := by
  induction h with
  | nil => exact .nil _
  | cons hst _ ih => exact .cons (hstep _ _ _ hst) ih

theorem restrict {P : α → Prop} (h : Exec step s as t) (hP : ∀ a ∈ as, P a) :
    Exec (fun s a t => step s a t ∧ P a) s as t := by
  induction h with
  | nil => exact .nil _
  | cons hst _ ih =>
    obtain ⟨ha, has⟩ := List.forall_mem_cons.mp hP
    exact .cons ⟨hst, ha⟩ (ih has)

theorem and_not_or (M : σ → α → Prop) (h : Exec step s as t) :
    Exec (fun s a t => step s a t ∧ ¬M s a) s as t ∨ ∃ before a after u, as = before ++ a :: after ∧
      Exec (fun s a t => step s a t ∧ ¬M s a) s before u ∧ M u a := by
  induction h with
  | nil => exact .inl (.nil _)
  | @cons s u t a as hst _ ih =>
    by_cases hM : M s a
    · exact .inr ⟨[], a, as, s, rfl, .nil _, hM⟩
    · rcases ih with hall | ⟨before, a', after, v, rfl, hbefore, hM'⟩
      · exact .inl (.cons ⟨hst, hM⟩ hall)
      · exact .inr ⟨a :: before, a', after, v, rfl, .cons ⟨hst, hM⟩ hbefore, hM'⟩

theorem append {bs : List α} {u : σ} (h : Exec step s as u) (h' : Exec step u bs t) :
    Exec step s (as ++ bs) t := by
  induction h with
  | nil => exact h'
  | cons hst _ ih => exact .cons hst (ih h')

theorem foldl (f : σ → α → σ) (s : σ) (as : List α) :
    Exec (fun s a t => t = f s a) s as (as.foldl f s) := by
  induction as generalizing s with
  | nil => exact .nil s
  | cons a as ih => exact .cons rfl (ih (f s a))

theorem refine {I : σ → Prop} {f : σ → τ}
    (hstep : ∀ s a t, I s → step s a t → I t ∧ step' (f s) a (f t))
    (h : Exec step s as t) (hs : I s) : Exec step' (f s) as (f t) := by
  induction h with
  | nil => exact .nil _
  | cons hst _ ih =>
    obtain ⟨hI, hst'⟩ := hstep _ _ _ hs hst
    exact .cons hst' (ih hI)

end Exec

/-! Runs of a partial function. -/

theorem pair_inj {β : Type*} {a c : α} {b d : β} (h : some (a, b) = some (c, d)) : a = c ∧ b = d :=
  Prod.mk.inj (Option.some.inj h)

/-- Every call meets `P` in the state in which it is made. -/
def Meets (f : σ → α → Option σ) (P : σ → α → Prop) : σ → List α → Prop
  | _, [] => True
  | s, a :: as => P s a ∧ ∀ t ∈ f s a, Meets f P t as

instance decideMeets {f : σ → α → Option σ} {P : σ → α → Prop} [∀ s a, Decidable (P s a)] :
    (s : σ) → (as : List α) → Decidable (Meets f P s as)
  | _, [] => inferInstanceAs (Decidable True)
  | s, a :: as =>
    have := fun t => decideMeets (f := f) (P := P) t as
    inferInstanceAs (Decidable (P s a ∧ ∀ t ∈ f s a, Meets f P t as))

theorem Meets.foldlM {f : σ → α → Option σ} {P : σ → α → Prop} {I : Nat → σ → Prop} {N k : Nat}
    {s : σ} {as : List α}
    (hstep : ∀ k s a, k < N → I k s → P s a → ∃ t, f s a = some t ∧ I (k + 1) t) (h : Meets f P s as)
    (hs : I k s) (hN : k + as.length ≤ N) : ∃ t, as.foldlM f s = some t ∧ I (k + as.length) t := by
  induction as generalizing k s with
  | nil => exact ⟨s, rfl, hs⟩
  | cons a as ih =>
    rw [List.length_cons] at hN
    obtain ⟨t, hf, ht⟩ := hstep k s a (by omega) hs h.1
    obtain ⟨u, hu, hI⟩ := ih (h.2 t hf) ht (by omega)
    refine ⟨u, ?_, ?_⟩
    · rw [List.foldlM_cons, hf]
      exact hu
    · rwa [List.length_cons, Nat.add_comm as.length 1, ← Nat.add_assoc]

theorem foldlM_invariant {f : σ → α → Option σ} {I : σ → Prop}
    (hstep : ∀ s a t, I s → f s a = some t → I t)
    {s t : σ} {as : List α} (h : as.foldlM f s = some t) (hs : I s) : I t := by
  induction as generalizing s with
  | nil =>
    obtain rfl := Option.some.inj h
    exact hs
  | cons a as ih =>
    rw [List.foldlM_cons] at h
    obtain ⟨u, hu, hrest⟩ := Option.bind_eq_some_iff.mp h
    exact ih hrest (hstep s a u hs hu)

end GcAos.Lib
