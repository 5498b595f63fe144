import Mathlib.Tactic

/-! The words of a list that separators stand between, in front of and behind, any number of them. -/

namespace GcAos.Lib

variable {α : Type*} [DecidableEq α] {sep : α} {l r : List α}

def words (sep : α) (l : List α) : List (List α) := (l.splitOn sep).filter (· ≠ [])

theorem words_append_sep (l r : List α) : words sep (l ++ sep :: r) = words sep l ++ words sep r := by
  rw [words, List.splitOn_append_cons_of_beq l r (beq_self_eq_true sep), List.filter_append]
  rfl

@[simp] theorem words_nil : words sep [] = [] := by
  rw [words, List.splitOn_nil]
  rfl

theorem words_sep_cons (r : List α) : words sep (sep :: r) = words sep r := by
  have h : words sep ([] ++ sep :: r) = words sep [] ++ words sep r := words_append_sep [] r
  rwa [words_nil] at h

theorem words_of_notMem (h : sep ∉ l) (hne : l ≠ []) : words sep l = [l] := by
  rw [words, List.splitOn_eq_singleton h, List.filter_cons_of_pos (by simpa using hne), List.filter_nil]

theorem words_dropWhile_eq (l : List α) : words sep (l.dropWhile (· = sep)) = words sep l := by
  induction l with
  | nil => rfl
  | cons x l ih =>
    by_cases hx : x = sep
    · rw [List.dropWhile_cons_of_pos (by simpa using hx), ih, hx, words_sep_cons]
    · rw [List.dropWhile_cons_of_neg (by simpa using hx)]

theorem words_eq_cons (hne : l ≠ []) (hhead : l.head? ≠ some sep) : words sep l =
    l.takeWhile (· ≠ sep) :: words sep (l.dropWhile (· ≠ sep)) := by
  have hnotMem : sep ∉ l.takeWhile (· ≠ sep) := by
    intro h
    simpa using List.all_eq_true.mp List.all_takeWhile sep h
  have hfirst : l.takeWhile (· ≠ sep) ≠ [] := by
    obtain ⟨x, l, rfl⟩ := List.exists_cons_of_ne_nil hne
    have hx : x ≠ sep := fun h => hhead (by rw [h]; rfl)
    rw [List.takeWhile_cons_of_pos (by simpa using hx)]
    exact List.cons_ne_nil _ _
  conv_lhs => rw [← List.takeWhile_append_dropWhile (p := fun x => decide (x ≠ sep)) (l := l)]
  rcases hrest : l.dropWhile (· ≠ sep) with _ | ⟨y, rest⟩
  · rw [List.append_nil, words_of_notMem hnotMem hfirst, words_nil]
  · have hy : y = sep := by
      have hhead := List.head?_dropWhile_not (fun x => decide (x ≠ sep)) l
      rw [hrest] at hhead
      simpa using hhead
    rw [hy, words_append_sep, words_of_notMem hnotMem hfirst, words_sep_cons]
    rfl

end GcAos.Lib
