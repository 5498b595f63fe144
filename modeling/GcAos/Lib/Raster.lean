import Mathlib.Data.Int.Order.Basic
import Mathlib.Data.List.Nodup
import Mathlib.Data.Set.Insert
import Mathlib.Logic.Function.Basic

/-! Rasters: loops that store pixel after pixel, and pixels that are saved and given back. -/

namespace GcAos.Lib

section stores

variable {ι α β γ : Type*} [DecidableEq α] [DecidableEq γ] {l : List ι} {f : ι → α} {v : ι → β} {m : α → β}
  {a : α} {b : β} {i : ι}

theorem foldl_update_of_ne (h : ∀ i ∈ l, a ≠ f i) :
    (l.foldl (fun m i => Function.update m (f i) (v i)) m) a = m a := by
  induction l generalizing m with
  | nil => rfl
  | cons i l ih =>
    obtain ⟨hi, hl⟩ := List.forall_mem_cons.mp h
    rw [List.foldl_cons, ih hl, Function.update_of_ne hi]

theorem foldl_update_of_or (hone : (∃ i ∈ l, f i = a) ∨ m a = b) (hall : ∀ i ∈ l, f i = a → v i = b) :
    (l.foldl (fun m i => Function.update m (f i) (v i)) m) a = b := by
  induction l generalizing m with
  | nil => exact hone.resolve_left fun ⟨i, hi, _⟩ => nomatch hi
  | cons i l ih =>
    obtain ⟨hi, hl⟩ := List.forall_mem_cons.mp hall
    rw [List.foldl_cons]
    refine ih ?_ hl
    by_cases hia : f i = a
    · rw [hia, Function.update_self]
      exact .inr (hi hia)
    · rw [Function.update_of_ne (Ne.symm hia)]
      refine hone.imp_left fun ⟨j, hj, hja⟩ => ⟨j, (List.mem_cons.mp hj).resolve_left fun h => ?_, hja⟩
      exact hia (h ▸ hja)

theorem foldl_update_of_mem (hi : i ∈ l) (hall : ∀ j ∈ l, f j = f i → v j = v i) :
    (l.foldl (fun m i => Function.update m (f i) (v i)) m) (f i) = v i :=
  foldl_update_of_or (.inl ⟨i, hi, rfl⟩) hall

def saveStore (f : ι → α) (g : ι → γ) (w : ι → β → β) (s : (γ → β) × (α → β)) (i : ι) : (γ → β) × (α → β) :=
  (Function.update s.1 (g i) (s.2 (f i)), Function.update s.2 (f i) (w i (s.2 (f i))))

/-- The places being different, it saves what was there before the loop. -/
theorem foldl_saveStore (hinj : ∀ i ∈ l, ∀ j ∈ l, f i = f j → i = j) (hl : l.Nodup) (g : ι → γ)
    (w : ι → β → β) (saved : γ → β) (m : α → β) :
    l.foldl (saveStore f g w) (saved, m) =
      (l.foldl (fun s i => Function.update s (g i) (m (f i))) saved,
        l.foldl (fun s i => Function.update s (f i) (w i (m (f i)))) m) := by
  suffices h : ∀ m', (∀ i ∈ l, m' (f i) = m (f i)) → l.foldl (saveStore f g w) (saved, m') =
      (l.foldl (fun s i => Function.update s (g i) (m (f i))) saved,
        l.foldl (fun s i => Function.update s (f i) (w i (m (f i)))) m') from h m fun _ _ => rfl
  intro m' hm
  induction l generalizing saved m' with
  | nil => rfl
  | cons i l ih =>
    obtain ⟨hi, hl⟩ := List.nodup_cons.mp hl
    obtain ⟨hmi, hml⟩ := List.forall_mem_cons.mp hm
    have hstep : saveStore f g w (saved, m') i =
        (Function.update saved (g i) (m (f i)), Function.update m' (f i) (w i (m (f i)))) := by
      rw [← hmi]
      rfl
    rw [List.foldl_cons, hstep]
    refine ih (fun j hj k hk => hinj j (List.mem_cons_of_mem i hj) k (List.mem_cons_of_mem i hk)) hl _ _
      fun j hj => ?_
    rw [Function.update_of_ne, hml j hj]
    intro h
    exact hi (hinj j (List.mem_cons_of_mem i hj) i List.mem_cons_self h ▸ hj)

end stores

/-- The places in `A` get what `src` has there, and no others change. -/
structure Copies {α β : Type*} (A : Set α) (src dst dst' : α → β) : Prop where
  inside : ∀ a ∈ A, dst' a = src a
  outside : ∀ a ∉ A, dst' a = dst a

namespace Copies

variable {ι α β : Type*} {A B : Set α} {src dst dst' dst'' : α → β} {l : List ι}

theorem trans (h : Copies A src dst dst') (h' : Copies B src dst' dst'') : Copies (A ∪ B) src dst dst'' where
  inside a ha := by
    by_cases hB : a ∈ B
    · exact h'.inside a hB
    · rw [h'.outside a hB]
      exact h.inside a (ha.resolve_right hB)
  outside a ha := by
    rw [h'.outside a fun hB => ha (.inr hB), h.outside a fun hA => ha (.inl hA)]

theorem refl (h : ∀ a, a ∉ A) : Copies A src dst dst where
  inside a ha := absurd ha (h a)
  outside _ _ := rfl

theorem eq_src (h : Copies A src dst dst') {a : α} (ha : a ∈ A ∨ dst a = src a) : dst' a = src a := by
  by_cases hA : a ∈ A
  · exact h.inside a hA
  · rw [h.outside a hA]
    exact ha.resolve_left hA

theorem update [DecidableEq α] (a : α) : Copies {a} src dst (Function.update dst a (src a)) where
  inside b hb := by
    rw [Set.mem_singleton_iff.mp hb]
    exact Function.update_self ..
  outside b hb := Function.update_of_ne (fun h => hb h) ..

theorem foldl {A : ι → Set α} {f : (α → β) → ι → α → β} (dst : α → β)
    (h : ∀ i ∈ l, ∀ d, Copies (A i) src d (f d i)) :
    Copies {a | ∃ i ∈ l, a ∈ A i} src dst (l.foldl f dst) := by
  induction l generalizing dst with
  | nil => exact ⟨fun a ha => absurd ha (by simp), fun _ _ => rfl⟩
  | cons i l ih =>
    obtain ⟨hi, hl⟩ := List.forall_mem_cons.mp h
    have hset : {a | ∃ j ∈ i :: l, a ∈ A j} = A i ∪ {a | ∃ j ∈ l, a ∈ A j} := by
      ext a
      simp
    rw [hset, List.foldl_cons]
    exact (hi dst).trans (ih _ hl)

end Copies

theorem rowMajor_inj {pitch x x' y y' : ℕ} (hx : x < pitch) (hx' : x' < pitch) :
    y * pitch + x = y' * pitch + x' ↔ x = x' ∧ y = y' := by
  refine ⟨fun h => ?_, fun ⟨h, h'⟩ => by rw [h, h']⟩
  have hmod := congrArg (· % pitch) h
  have hdiv := congrArg (· / pitch) h
  simp only [Nat.mul_comm _ pitch, Nat.mul_add_mod, Nat.mul_add_div (Nat.zero_lt_of_lt hx),
    Nat.mod_eq_of_lt hx, Nat.mod_eq_of_lt hx', Nat.div_eq_of_lt hx, Nat.div_eq_of_lt hx', Nat.add_zero] at hmod hdiv
  exact ⟨hmod, hdiv⟩

def cells (width height : ℕ) : List (ℕ × ℕ) :=
  (List.range height).flatMap fun row => (List.range width).map fun col => (col, row)

theorem mem_cells {width height : ℕ} {c : ℕ × ℕ} : c ∈ cells width height ↔ c.1 < width ∧ c.2 < height := by
  obtain ⟨col, row⟩ := c
  simp only [cells, List.mem_flatMap, List.mem_range, List.mem_map, Prod.mk.injEq]
  constructor
  · rintro ⟨row', hrow, col', hcol, rfl, rfl⟩
    exact ⟨hcol, hrow⟩
  · rintro ⟨hcol, hrow⟩
    exact ⟨row, hrow, col, hcol, rfl, rfl⟩

theorem nodup_cells (width height : ℕ) : (cells width height).Nodup := by
  refine List.nodup_flatMap.mpr ⟨fun row _ => ?_, ?_⟩
  · exact List.nodup_range.map fun col col' h => (Prod.mk.inj h).1
  · refine List.nodup_range.imp fun {row row'} hne => ?_
    show List.Disjoint _ _
    intro c hc hc'
    obtain ⟨col, -, rfl⟩ := List.mem_map.mp hc
    obtain ⟨col', -, h⟩ := List.mem_map.mp hc'
    exact hne (Prod.mk.inj h).2.symm

end GcAos.Lib
