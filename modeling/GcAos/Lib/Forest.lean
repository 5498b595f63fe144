import Mathlib.Tactic

/-! Trees of pointer blocks that hang from named roots. `word b i` is pointer `i` of block `b`, and
0 is no pointer. Blocks are addressed by a root and the path of indices below it, the last index
first. In an `Owned` forest no block has two addresses. -/

namespace GcAos.Lib

structure Shape (κ : Type*) where
  depth : κ → ℕ
  arity : ℕ

variable {κ : Type*} {S : Shape κ} {root root' : κ → ℕ → Prop} {word word' : ℕ → ℕ → ℕ}
  {k k₀ : κ} {p p₀ : List ℕ} {b b₀ c i j : ℕ}

/-- The block `b` is referenced at address `k`, `p`. -/
inductive Refs (S : Shape κ) (root : κ → ℕ → Prop) (word : ℕ → ℕ → ℕ) : κ → List ℕ → ℕ → Prop
  | root {k : κ} {b : ℕ} : root k b → b ≠ 0 → Refs S root word k [] b
  | child {k : κ} {p : List ℕ} {b i : ℕ} : Refs S root word k p b → p.length < S.depth k →
      i < S.arity → word b i ≠ 0 → Refs S root word k (i :: p) (word b i)

def Owned (S : Shape κ) (root : κ → ℕ → Prop) (word : ℕ → ℕ → ℕ) : Prop :=
  ∀ ⦃k p k' p' b⦄, Refs S root word k p b → Refs S root word k' p' b → k = k' ∧ p = p'

namespace Refs

theorem mono (h : Refs S root' word' k p b)
    (hroot : ∀ k b, root' k b → b ≠ 0 → root k b)
    (hword : ∀ k p b, Refs S root word k p b → p.length < S.depth k →
      ∀ i < S.arity, word' b i = word b i) : Refs S root word k p b := by
  induction h with
  | root hr hb => exact .root (hroot _ _ hr hb) hb
  | child _ hp hi hb ih =>
    rw [hword _ _ _ ih hp _ hi] at hb ⊢
    exact .child ih hp hi hb

theorem of_addRoot (h : Refs S root' word k p b)
    (hroot : ∀ k b, root' k b → b ≠ 0 → root k b ∨ k = k₀ ∧ b = b₀)
    (hzero : 0 < S.depth k₀ → ∀ i < S.arity, word b₀ i = 0) :
    Refs S root word k p b ∨ k = k₀ ∧ p = [] ∧ b = b₀ := by
  induction h with
  | root hr hb =>
    rcases hroot _ _ hr hb with hr | ⟨hk, hb₀⟩
    · exact .inl (.root hr hb)
    · exact .inr ⟨hk, rfl, hb₀⟩
  | child _ hp hi hb ih =>
    rcases ih with ih | ⟨rfl, rfl, rfl⟩
    · exact .inl (.child ih hp hi hb)
    · exact absurd (hzero hp _ hi) hb

theorem of_setWord (h : Refs S root word' k p b) (howned : Owned S root word)
    (hc : Refs S root word k₀ p₀ c) (hlast : p₀.length + 1 = S.depth k₀)
    (hnew : word' c j = b₀)
    (hword : ∀ k p b, Refs S root word k p b → p.length < S.depth k →
      ∀ i < S.arity, b ≠ c ∨ i ≠ j → word' b i = word b i) :
    Refs S root word k p b ∨ k = k₀ ∧ p = j :: p₀ ∧ b = b₀ := by
  induction h with
  | root hr hb => exact .inl (.root hr hb)
  | @child p b i _ hp hi hb ih =>
    rcases ih with ih | ⟨rfl, rfl, rfl⟩
    · by_cases hedge : b = c ∧ i = j
      · obtain ⟨rfl, rfl⟩ := hedge
        obtain ⟨rfl, rfl⟩ := howned ih hc
        exact .inr ⟨rfl, rfl, hnew⟩
      · have hsame := hword _ _ _ ih hp _ hi (not_and_or.mp hedge)
        rw [hsame] at hb ⊢
        exact .inl (.child ih hp hi hb)
    · -- the new block is a leaf
      simp only [List.length_cons] at hp
      omega

end Refs

namespace Owned

theorem mono (h : Owned S root word)
    (hsub : ∀ k p b, Refs S root' word' k p b → Refs S root word k p b) :
    Owned S root' word' :=
  fun _ _ _ _ _ hb hb' => h (hsub _ _ _ hb) (hsub _ _ _ hb')

theorem grow (h : Owned S root word) (hfresh : ∀ k p, ¬Refs S root word k p b₀)
    (hsub : ∀ k p b, Refs S root' word' k p b →
      Refs S root word k p b ∨ k = k₀ ∧ p = p₀ ∧ b = b₀) : Owned S root' word' := by
  intro k p k' p' b hb hb'
  rcases hsub _ _ _ hb with hold | ⟨rfl, rfl, rfl⟩
  · rcases hsub _ _ _ hb' with hold' | ⟨-, -, rfl⟩
    · exact h hold hold'
    · exact absurd hold (hfresh _ _)
  · rcases hsub _ _ _ hb' with hold' | ⟨rfl, rfl, -⟩
    · exact absurd hold' (hfresh _ _)
    · exact ⟨rfl, rfl⟩

theorem ne_of_leaf (h : Owned S root word) (hleaf : Refs S root word k₀ p₀ c)
    (hlen : p₀.length = S.depth k₀) (hb : Refs S root word k p b) (hp : p.length < S.depth k) :
    b ≠ c := by
  rintro rfl
  obtain ⟨rfl, rfl⟩ := h hb hleaf
  omega

end Owned

end GcAos.Lib
