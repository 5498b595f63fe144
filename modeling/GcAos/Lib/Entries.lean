import Mathlib.Data.List.Nodup
import Mathlib.Data.List.Perm.Basic

/-! Walks over the entries of a list of addresses. -/

namespace GcAos.Lib

variable {α : Type*} {read : Nat → Option α} {p : α → Prop} [DecidablePred p] {l : List Nat}
  {a : Nat} {x : α}

/-- The first entry that meets `p`. The outer `none` is for an address where there is no entry, the
inner one for the end of the list. -/
def findEntry (read : Nat → Option α) (p : α → Prop) [DecidablePred p] : List Nat →
    Option (Option (Nat × α))
  | [] => some none
  | a :: rest =>
    match read a with
    | none => none
    | some x => if p x then some (some (a, x)) else findEntry read p rest

theorem findEntry_cons_pos (h : read a = some x) (hp : p x) :
    findEntry read p (a :: l) = some (some (a, x)) := by rw [findEntry, h]; exact if_pos hp

theorem findEntry_cons_neg (h : read a = some x) (hp : ¬p x) :
    findEntry read p (a :: l) = findEntry read p l := by rw [findEntry, h]; exact if_neg hp

theorem mem_of_findEntry (h : findEntry read p l = some (some (a, x))) :
    a ∈ l ∧ read a = some x ∧ p x := by
  induction l with
  | nil => exact absurd (Option.some.inj h) (Option.some_ne_none _).symm
  | cons b l ih =>
    cases hb : read b with
    | none =>
      rw [findEntry, hb] at h
      exact absurd h (Option.some_ne_none _).symm
    | some y =>
      by_cases hp : p y
      · rw [findEntry_cons_pos hb hp] at h
        obtain ⟨rfl, rfl⟩ := Prod.mk.inj (Option.some.inj (Option.some.inj h))
        exact ⟨List.mem_cons_self, hb, hp⟩
      · rw [findEntry_cons_neg hb hp] at h
        obtain ⟨hmem, hx⟩ := ih h
        exact ⟨List.mem_cons_of_mem b hmem, hx⟩

theorem findEntry_eq_none (h : findEntry read p l = some none) : ∀ a ∈ l, ∀ x, read a = some x →
    ¬p x := by
  induction l with
  | nil => exact fun a ha => absurd ha List.not_mem_nil
  | cons b l ih =>
    cases hb : read b with
    | none =>
      rw [findEntry, hb] at h
      exact absurd h (Option.some_ne_none _).symm
    | some y =>
      by_cases hp : p y
      · rw [findEntry_cons_pos hb hp] at h
        exact absurd (Option.some.inj h) (Option.some_ne_none _)
      · rw [findEntry_cons_neg hb hp] at h
        refine List.forall_mem_cons.mpr ⟨fun x hx => ?_, ih h⟩
        rwa [← Option.some.inj (hb.symm.trans hx)]

theorem findEntry_isSome (h : ∀ a ∈ l, (read a).isSome) : (findEntry read p l).isSome := by
  induction l with
  | nil => rfl
  | cons b l ih =>
    obtain ⟨hb, hl⟩ := List.forall_mem_cons.mp h
    obtain ⟨y, hy⟩ := Option.isSome_iff_exists.mp hb
    by_cases hp : p y
    · rw [findEntry_cons_pos hy hp]
      rfl
    · rw [findEntry_cons_neg hy hp]
      exact ih hl

theorem findEntry_cases (h : ∀ a ∈ l, (read a).isSome) :
    findEntry read p l = some none ∨ ∃ a x, findEntry read p l = some (some (a, x)) := by
  obtain ⟨found, hfound⟩ := Option.isSome_iff_exists.mp (findEntry_isSome (p := p) h)
  rcases found with _ | ⟨a, x⟩
  · exact .inl hfound
  · exact .inr ⟨a, x, hfound⟩

/-! What hangs from the entries. -/

variable {β : Type*} {f : Nat → List β}

theorem flatMap_perm_erase (ha : a ∈ l) : (l.flatMap f).Perm (f a ++ (l.erase a).flatMap f) :=
  (List.perm_cons_erase ha).flatMap_right f

theorem flatMap_update_of_not_mem (ha : a ∉ l) (y : List β) :
    l.flatMap (Function.update f a y) = l.flatMap f :=
  List.flatMap_congr fun _ hb => Function.update_of_ne (ne_of_mem_of_not_mem hb ha) ..

theorem flatMap_update_perm (hl : l.Nodup) (ha : a ∈ l) (y : List β) :
    (l.flatMap (Function.update f a y)).Perm (y ++ (l.erase a).flatMap f) := by
  have h := flatMap_perm_erase (f := Function.update f a y) ha
  rwa [Function.update_self, flatMap_update_of_not_mem hl.not_mem_erase] at h

end GcAos.Lib
