import Mathlib.Tactic

/-! Blocks of `2 ^ o` units: free ones on one list for each order, others in hand. What a block
weighs is shared out to its two halves when it is split. -/

namespace GcAos.Lib
open Finset

/-- The weight of the block of order `o` at `i` is that of its halves. -/
def Splits (g : ℕ → ℕ → ℕ) : Prop := ∀ o i, g (o + 1) i = g o i + g o (i + 2 ^ o)

/-- The number of blocks, one or none, of order `o` at `i` that the unit `p` is in. -/
def holds (p o i : ℕ) : ℕ := if i ≤ p ∧ p < i + 2 ^ o then 1 else 0

theorem splits_length : Splits fun o _ => 2 ^ o := by
  intro o i
  exact (pow_succ 2 o).trans (Nat.mul_two _)

theorem splits_holds (p : ℕ) : Splits (holds p) := by
  intro o i
  have hpow : 2 ^ (o + 1) = 2 ^ o + 2 ^ o := by rw [pow_succ, Nat.mul_two]
  have hpos := Nat.two_pow_pos o
  unfold holds
  split_ifs <;> omega

theorem holds_self (o i : ℕ) : holds i o i = 1 :=
  if_pos ⟨le_rfl, Nat.lt_add_of_pos_right (Nat.two_pow_pos o)⟩

/-- The weight of all blocks below order `n`: those on the lists, and those in hand. -/
def total (g : ℕ → ℕ → ℕ) (n : ℕ) (lists : ℕ → List ℕ) (hand : List (ℕ × ℕ)) : ℕ :=
  ∑ o ∈ range n, ((lists o).map (g o)).sum + (hand.map fun x => g x.2 x.1).sum

variable {g : ℕ → ℕ → ℕ} {n o k i : ℕ} {lists : ℕ → List ℕ} {hand hand' : List (ℕ × ℕ)}

theorem total_cons : total g n lists ((i, o) :: hand) = total g n lists hand + g o i := by
  unfold total
  rw [List.map_cons, List.sum_cons]
  dsimp only
  omega

theorem total_perm (h : hand.Perm hand') : total g n lists hand = total g n lists hand' := by
  unfold total
  rw [(h.map fun x => g x.2 x.1).sum_eq]

theorem total_split (hg : Splits g) :
    total g n lists ((i, o + 1) :: hand) = total g n lists ((i, o) :: (i + 2 ^ o, o) :: hand) := by
  rw [total_cons, total_cons, total_cons, hg o i]
  omega

theorem total_push (ho : o < n) : total g n (Function.update lists o (i :: lists o)) hand =
    total g n lists ((i, o) :: hand) := by
  have hmem : o ∈ range n := mem_range.mpr ho
  have hrest : ∀ k ∈ (range n).erase o,
      (((Function.update lists o (i :: lists o)) k).map (g k)).sum = ((lists k).map (g k)).sum := by
    intro k hk
    rw [Function.update_of_ne (ne_of_mem_erase hk)]
  rw [total_cons]
  unfold total
  rw [← add_sum_erase _ _ hmem, ← add_sum_erase _ _ hmem, sum_congr rfl hrest,
    Function.update_self, List.map_cons, List.sum_cons]
  omega

theorem total_pop {l : List ℕ} (ho : o < n) (hl : lists o = i :: l) :
    total g n lists hand = total g n (Function.update lists o l) ((i, o) :: hand) := by
  have hback : Function.update (Function.update lists o l) o
      (i :: Function.update lists o l o) = lists := by
    rw [Function.update_self, Function.update_idem, ← hl, Function.update_eq_self]
  rw [← total_push ho, hback]

theorem le_total (ho : o < n) (hi : i ∈ lists o) : g o i ≤ total g n lists hand := by
  have hone : g o i ≤ ((lists o).map (g o)).sum :=
    List.single_le_sum (fun _ _ => Nat.zero_le _) _ (List.mem_map_of_mem hi)
  have hsum := single_le_sum (f := fun o => ((lists o).map (g o)).sum) (fun _ _ => Nat.zero_le _)
    (mem_range.mpr ho)
  exact (hone.trans hsum).trans (Nat.le_add_right _ _)

theorem add_le_total {j : ℕ} (ho : o < n) (hk : k < n) (hne : o ≠ k) (hi : i ∈ lists o) (hj : j ∈ lists k) :
    g o i + g k j ≤ total g n lists hand := by
  have hi' : g o i ≤ ((lists o).map (g o)).sum :=
    List.single_le_sum (fun _ _ => Nat.zero_le _) _ (List.mem_map_of_mem hi)
  have hj' : g k j ≤ ((lists k).map (g k)).sum :=
    List.single_le_sum (fun _ _ => Nat.zero_le _) _ (List.mem_map_of_mem hj)
  have hpair : ∑ m ∈ {o, k}, ((lists m).map (g m)).sum ≤ ∑ m ∈ range n, ((lists m).map (g m)).sum := by
    apply sum_le_sum_of_subset
    intro m hm
    rcases mem_insert.mp hm with rfl | hm
    · exact mem_range.mpr ho
    · exact mem_singleton.mp hm ▸ mem_range.mpr hk
  rw [sum_pair hne] at hpair
  unfold total
  omega

theorem mem_push {j : ℕ} (h : j ∈ Function.update lists o (i :: lists o) k) :
    (j = i ∧ k = o) ∨ j ∈ lists k := by
  by_cases hko : k = o
  · subst hko
    rw [Function.update_self] at h
    exact (List.mem_cons.mp h).imp_left fun hj => ⟨hj, rfl⟩
  · rw [Function.update_of_ne hko] at h
    exact .inr h

theorem mem_pop {j : ℕ} {l : List ℕ} (hl : lists o = i :: l) (h : j ∈ Function.update lists o l k) :
    j ∈ lists k := by
  by_cases hko : k = o
  · subst hko
    rw [Function.update_self] at h
    rw [hl]
    exact List.mem_cons_of_mem i h
  · rwa [Function.update_of_ne hko] at h

theorem notMem_of_total (h : total (holds i) n lists ((i, k) :: hand) ≤ 1) (ho : o < n) :
    i ∉ lists o := by
  intro hi
  have hle : holds i o i ≤ total (holds i) n lists hand := le_total ho hi
  rw [total_cons, holds_self] at h
  rw [holds_self] at hle
  omega

theorem xor_two_pow {x : ℕ} (h : 2 ^ (k + 1) ∣ x) : x ^^^ 2 ^ k = x + 2 ^ k := by
  obtain ⟨q, rfl⟩ := h
  have hlt : 2 ^ k < 2 ^ (k + 1) := Nat.pow_lt_pow_right (by decide) (Nat.lt_succ_self k)
  apply Nat.eq_of_testBit_eq
  intro j
  rw [Nat.testBit_xor, Nat.testBit_two_pow_mul_add q hlt, Nat.testBit_two_pow_mul]
  by_cases hj : j < k + 1
  · rw [if_pos hj]
    simp [Nat.not_le.mpr hj]
  · rw [if_neg hj, Nat.testBit_two_pow_of_ne (by omega)]
    simp [Nat.le_of_not_lt hj]

end GcAos.Lib
