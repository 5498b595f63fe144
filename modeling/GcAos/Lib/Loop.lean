import Mathlib.Computability.StateTransition

/-! Loops as the iteration of a step that ends with `none`. -/

namespace GcAos.Lib.Loop

variable {σ : Type*} {f : σ → Option σ} {s t u : σ}

def run (f : σ → Option σ) : ℕ → σ → σ
  | 0, s => s
  | n + 1, s =>
    match f s with
    | none => s
    | some t => run f n t

theorem run_of_some (h : f s = some t) (n : ℕ) : run f (n + 1) s = run f n t := by
  rw [run, h]

theorem run_of_none (h : f s = none) (n : ℕ) : run f n s = s := by
  cases n with
  | zero => rfl
  | succ n => rw [run, h]

theorem reaches_run (f : σ → Option σ) (n : ℕ) (s : σ) : StateTransition.Reaches f s (run f n s) := by
  induction n generalizing s with
  | zero => exact .refl
  | succ n ih =>
    cases h : f s with
    | none =>
      rw [run_of_none h]
      exact .refl
    | some t =>
      rw [run_of_some h]
      exact .head h (ih t)

theorem run_succ {n : ℕ} (h : f (run f n s) = some t) : run f (n + 1) s = t := by
  induction n generalizing s with
  | zero => exact run_of_some h 0
  | succ n ih =>
    cases hs : f s with
    | none =>
      rw [run_of_none hs, hs] at h
      exact absurd h (by simp)
    | some u =>
      rw [run_of_some hs] at h ⊢
      exact ih h

theorem run_of_stop {n m : ℕ} (h : f (run f n s) = none) (hle : n ≤ m) : run f m s = run f n s := by
  induction n generalizing s m with
  | zero => exact run_of_none h m
  | succ n ih =>
    cases hs : f s with
    | none => rw [run_of_none hs, run_of_none hs]
    | some t =>
      obtain ⟨m, rfl⟩ := Nat.exists_eq_add_of_le' hle
      rw [run_of_some hs] at h
      rw [← Nat.add_assoc, run_of_some hs, run_of_some hs]
      exact ih h (Nat.le_add_left n m)

theorem exists_run_eq (h : StateTransition.Reaches f s t) : ∃ n, run f n s = t := by
  induction h with
  | refl => exact ⟨0, rfl⟩
  | tail _ hstep ih =>
    obtain ⟨n, rfl⟩ := ih
    exact ⟨n + 1, run_succ hstep⟩

theorem run_stops (μ : σ → ℕ) (hdec : ∀ s t, f s = some t → μ t < μ s) {n : ℕ} (h : μ s ≤ n) :
    f (run f n s) = none := by
  induction n generalizing s with
  | zero =>
    cases hs : f s with
    | none => exact hs
    | some t => exact absurd (hdec s t hs) (by omega)
  | succ n ih =>
    cases hs : f s with
    | none =>
      rw [run_of_none hs]
      exact hs
    | some t =>
      rw [run_of_some hs]
      have := hdec s t hs
      exact ih (by omega)

theorem stop_unique (ht : StateTransition.Reaches f s t) (hu : StateTransition.Reaches f s u)
    (ht' : f t = none) (hu' : f u = none) : t = u :=
  Part.mem_unique (StateTransition.mem_eval.mpr ⟨ht, ht'⟩) (StateTransition.mem_eval.mpr ⟨hu, hu'⟩)

theorem reaches_of_none (h : f s = none) (ht : StateTransition.Reaches f s t) : t = s := by
  refine (Relation.reflTransGen_iff_eq fun u hu => ?_).mp ht
  exact absurd (h.symm.trans hu) (Option.some_ne_none u).symm

theorem reaches_iff_of_some (h : f s = some t) :
    StateTransition.Reaches f s u ↔ u = s ∨ StateTransition.Reaches f t u := by
  constructor
  · intro hu
    rcases Relation.ReflTransGen.cases_head hu with rfl | ⟨t', ht', hu⟩
    · exact .inl rfl
    · cases h.symm.trans ht'
      exact .inr hu
  · rintro (rfl | hu)
    · exact .refl
    · exact .head h hu

theorem run_iff {Q N : σ → Prop} (hturn : ∀ s t, f s = some t → (Q t ↔ N s ∧ Q s)) {n : ℕ}
    (hstop : f (run f n s) = none) :
    Q (run f n s) ↔ Q s ∧ ∀ t, StateTransition.Reaches f s t → f t ≠ none → N t := by
  induction n generalizing s with
  | zero => exact (and_iff_left fun t ht hne => absurd hstop (reaches_of_none hstop ht ▸ hne)).symm
  | succ n ih =>
    cases hs : f s with
    | none =>
      rw [run_of_none hs]
      exact (and_iff_left fun t ht hne => absurd hs (reaches_of_none hs ht ▸ hne)).symm
    | some u =>
      rw [run_of_some hs] at hstop ⊢
      rw [ih hstop, hturn s u hs]
      simp only [reaches_iff_of_some hs]
      constructor
      · rintro ⟨⟨hN, hQ⟩, hall⟩
        refine ⟨hQ, ?_⟩
        rintro t (rfl | ht) hne
        · exact hN
        · exact hall t ht hne
      · rintro ⟨hQ, hall⟩
        refine ⟨⟨hall s (.inl rfl) ?_, hQ⟩, fun t ht => hall t (.inr ht)⟩
        rw [hs]
        exact Option.some_ne_none u

theorem run_add (n m : ℕ) : run f (n + m) s = run f m (run f n s) := by
  induction n generalizing s with
  | zero => rw [Nat.zero_add, run]
  | succ n ih =>
    cases hs : f s with
    | none => rw [run_of_none hs, run_of_none hs, run_of_none hs]
    | some t =>
      rw [Nat.add_right_comm, run_of_some hs, run_of_some hs]
      exact ih

theorem returns_of_reaches (h : StateTransition.Reaches₁ f s s) (ht : StateTransition.Reaches f s t) :
    StateTransition.Reaches₁ f t t := by
  induction ht with
  | refl => exact h
  | @tail u v _ hv ih =>
    obtain ⟨w, hw, hback⟩ := Relation.TransGen.head'_iff.mp ih
    obtain rfl := Option.mem_unique hw hv
    exact .tail' hback hv

theorem not_returns_of_stop {n : ℕ} (hstop : f (run f n s) = none) (ht : StateTransition.Reaches f s t) :
    ¬StateTransition.Reaches₁ f t t := by
  intro hback
  have hend : StateTransition.Reaches f t (run f n s) := by
    rcases StateTransition.reaches_total ht (reaches_run f n s) with h | h
    · exact h
    · rw [reaches_of_none hstop h]
      exact .refl
  obtain ⟨u, hu, -⟩ := Relation.TransGen.head'_iff.mp (returns_of_reaches hback hend)
  exact absurd (hstop.symm.trans hu) (Option.some_ne_none u).symm

theorem run_stops_of_not_returns (S : Finset σ) (hS : ∀ t, f t ≠ none → t ∈ S)
    (h : ∀ t, StateTransition.Reaches f s t → ¬StateTransition.Reaches₁ f t t) :
    f (run f S.card s) = none := by
  by_contra hgoes
  have hmem (k : ℕ) (hk : k ∈ Finset.range (S.card + 1)) : run f k s ∈ S := by
    refine hS _ fun hnone => hgoes ?_
    rw [run_of_stop hnone (Nat.le_of_lt_succ (Finset.mem_range.mp hk))]
    exact hnone
  have hcard : S.card < (Finset.range (S.card + 1)).card := by
    rw [Finset.card_range]
    exact Nat.lt_succ_self _
  obtain ⟨i, hi, j, hj, hne, heq⟩ := Finset.exists_ne_map_eq_of_card_lt_of_maps_to hcard hmem
  wlog hlt : i < j generalizing i j
  · exact this j hj i hi hne.symm heq.symm (by omega)
  obtain ⟨k, rfl⟩ := Nat.exists_eq_add_of_lt hlt
  have hrun : run f (k + 1) (run f i s) = run f i s := by
    rw [← run_add]
    exact heq.symm
  cases hi' : f (run f i s) with
  | none => exact absurd (run_of_stop hi' (Nat.le_of_lt_succ (Finset.mem_range.mp hi)) ▸ hi') hgoes
  | some t =>
    refine h _ (reaches_run f i s) (.head' hi' ?_)
    rw [run_of_some hi'] at hrun
    rw [← hrun]
    exact reaches_run f k t

end GcAos.Lib.Loop
