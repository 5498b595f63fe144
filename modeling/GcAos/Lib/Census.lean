import Mathlib.Data.Set.Card
import Mathlib.Tactic

/-! How many places of a table hold a value of some kind, and what one store does to their number. -/

namespace GcAos.Lib

variable {α β : Type*} {f : α → β} {p : β → Prop} {n : ℕ} {a : α} {v : β}

/-- `n` places, and no more, hold a value with `p`. -/
structure Census (f : α → β) (p : β → Prop) (n : ℕ) : Prop where
  finite : {a | p (f a)}.Finite
  card : {a | p (f a)}.ncard = n

namespace Census

theorem empty (h : ∀ a, ¬ p (f a)) : Census f p 0 := by
  have hempty : {a | p (f a)} = ∅ := Set.eq_empty_of_forall_notMem h
  exact ⟨hempty ▸ Set.finite_empty, hempty ▸ Set.ncard_empty α⟩

theorem congr {g : α → β} (h : Census f p n) (hiff : ∀ a, p (g a) ↔ p (f a)) : Census g p n := by
  have hsame : {a | p (g a)} = {a | p (f a)} := Set.ext hiff
  exact ⟨hsame ▸ h.finite, hsame ▸ h.card⟩

variable [DecidableEq α]

theorem same (h : Census f p n) (hiff : p v ↔ p (f a)) : Census (Function.update f a v) p n := by
  refine h.congr fun x => ?_
  by_cases hx : x = a
  · rw [hx, Function.update_self, hiff]
  · rw [Function.update_of_ne hx]

theorem gain (h : Census f p n) (hold : ¬ p (f a)) (hnew : p v) :
    Census (Function.update f a v) p (n + 1) := by
  have hset : {x | p (Function.update f a v x)} = insert a {x | p (f x)} := by
    ext x
    by_cases hx : x = a
    · simp [hx, hnew]
    · simp [hx]
  have hout : a ∉ {x | p (f x)} := hold
  refine ⟨hset ▸ h.finite.insert a, ?_⟩
  rw [hset, Set.ncard_insert_of_notMem hout h.finite, h.card]

theorem lose (h : Census f p n) (hold : p (f a)) (hnew : ¬ p v) :
    ∃ k, n = k + 1 ∧ Census (Function.update f a v) p k := by
  have hset : {x | p (Function.update f a v x)} = {x | p (f x)} \ {a} := by
    ext x
    by_cases hx : x = a
    · simp [hx, hnew]
    · simp [hx]
  have hin : a ∈ {x | p (f x)} := hold
  refine ⟨_, ?_, hset ▸ h.finite.sdiff, rfl⟩
  rw [hset, Set.ncard_sdiff_singleton_add_one hin h.finite, h.card]

end Census

end GcAos.Lib
