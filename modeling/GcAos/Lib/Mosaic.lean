import Mathlib.Data.Set.Insert

/-! Pictures made of tiles on a background, and of tiles that are drawn again one by one. -/

namespace GcAos.Lib

/-- The tiles at the places of a grid, no two of which share a point, on an area. -/
structure Mosaic (ι α : Type*) where
  grid : Set ι
  tile : ι → Set α
  area : Set α
  apart : ∀ i ∈ grid, ∀ j ∈ grid, ∀ p ∈ tile i, p ∈ tile j → i = j

namespace Mosaic

variable {ι α β γ : Type*} (m : Mosaic ι α)

/-- `s'` is `s` with the content of one tile drawn. -/
structure Draws (content : ι → α → γ) (i : ι) (s s' : α → γ) : Prop where
  on : ∀ p ∈ m.tile i, s' p = content i p
  off : ∀ p ∉ m.tile i, s' p = s p

/-- The tiles at the places in `S` show their content, and beside all tiles is the background. -/
structure Shows (content : ι → α → γ) (back : γ) (S : Set ι) (s : α → γ) : Prop where
  tile : ∀ i ∈ m.grid, i ∈ S → ∀ p ∈ m.tile i, s p = content i p
  beside : ∀ p ∈ m.area, (∀ i ∈ m.grid, p ∉ m.tile i) → s p = back

variable {m : Mosaic ι α} {content content' : ι → α → γ} {back : γ} {S S' : Set ι} {s s' : α → γ} {i : ι}

namespace Shows

theorem congr (h : m.Shows content back S s) (hsame : ∀ i ∈ m.grid, i ∈ S' → i ∈ S ∧ content' i = content i) :
    m.Shows content' back S' s := by
  refine ⟨fun i hi hS p hp => ?_, h.beside⟩
  obtain ⟨hmem, heq⟩ := hsame i hi hS
  rw [heq]
  exact h.tile i hi hmem p hp

theorem draw (h : m.Shows content back S s) (hi : i ∈ m.grid) (hd : m.Draws content i s s') :
    m.Shows content back (insert i S) s' := by
  refine ⟨fun j hj hS p hp => ?_, fun p hp hbeside => ?_⟩
  · by_cases htile : p ∈ m.tile i
    · rw [← m.apart i hi j hj p htile hp]
      exact hd.on p htile
    · have hne : j ≠ i := fun heq => htile (heq ▸ hp)
      rw [hd.off p htile]
      exact h.tile j hj (hS.resolve_left hne) p hp
  · rw [hd.off p (hbeside i hi)]
    exact h.beside p hp hbeside

theorem foldl {f : (α → γ) → β → α → γ} (place : β → ι) (drawn : Set β) {bs : List β}
    (h : m.Shows content back S s)
    (hdraw : ∀ s, ∀ b ∈ bs, b ∈ drawn → place b ∈ m.grid ∧ m.Draws content (place b) s (f s b))
    (hskip : ∀ s, ∀ b ∈ bs, b ∉ drawn → f s b = s) :
    m.Shows content back (S ∪ { i | ∃ b ∈ bs, b ∈ drawn ∧ place b = i }) (bs.foldl f s) := by
  induction bs generalizing s S with
  | nil => exact h.congr fun i _ hi => ⟨hi.resolve_right (by simp), rfl⟩
  | cons b bs ih =>
    have hdraw' := fun s c (hc : c ∈ bs) => hdraw s c (List.mem_cons_of_mem b hc)
    have hskip' := fun s c (hc : c ∈ bs) => hskip s c (List.mem_cons_of_mem b hc)
    by_cases hb : b ∈ drawn
    · obtain ⟨hgrid, hd⟩ := hdraw s b List.mem_cons_self hb
      refine (ih (h.draw hgrid hd) hdraw' hskip').congr fun i _ hi => ⟨?_, rfl⟩
      rcases hi with hi | ⟨c, hc, hmem, rfl⟩
      · exact .inl (.inr hi)
      · rcases List.mem_cons.mp hc with rfl | hc
        · exact .inl (.inl rfl)
        · exact .inr ⟨c, hc, hmem, rfl⟩
    · rw [List.foldl_cons, hskip s b List.mem_cons_self hb]
      refine (ih h hdraw' hskip').congr fun i _ hi => ⟨?_, rfl⟩
      rcases hi with hi | ⟨c, hc, hmem, rfl⟩
      · exact .inl hi
      · rcases List.mem_cons.mp hc with rfl | hc
        · exact absurd hmem hb
        · exact .inr ⟨c, hc, hmem, rfl⟩

theorem eqOn (h : m.Shows content back S s) (h' : m.Shows content back S s') (hS : ∀ i ∈ m.grid, i ∈ S) :
    Set.EqOn s s' m.area := by
  intro p hp
  by_cases hbeside : ∀ i ∈ m.grid, p ∉ m.tile i
  · rw [h.beside p hp hbeside, h'.beside p hp hbeside]
  · simp only [not_forall, not_not] at hbeside
    obtain ⟨i, hi, htile⟩ := hbeside
    rw [h.tile i hi (hS i hi) p htile, h'.tile i hi (hS i hi) p htile]

end Shows

end Mosaic

end GcAos.Lib
