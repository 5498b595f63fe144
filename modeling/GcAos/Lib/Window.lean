import Mathlib.Data.List.Range
import Mathlib.Logic.Function.Basic
import Mathlib.Tactic

/-! Windows of a circular buffer: the `n` cells from position `start` on, wrapping
at the capacity. -/

namespace GcAos.Lib

variable {α : Type*}

def window (cap : ℕ) (cell : ℕ → α) (start n : ℕ) : List α :=
  (List.range n).map fun i => cell ((start + i) % cap)

@[simp] theorem window_zero (cap : ℕ) (cell : ℕ → α) (start : ℕ) : window cap cell start 0 = [] := rfl

@[simp] theorem length_window (cap : ℕ) (cell : ℕ → α) (start n : ℕ) :
    (window cap cell start n).length = n := by
  simp [window]

theorem window_succ (cap : ℕ) (cell : ℕ → α) (start n : ℕ) :
    window cap cell start (n + 1) = window cap cell start n ++ [cell ((start + n) % cap)] := by
  simp [window, List.range_succ]

theorem window_mod (cap : ℕ) (cell : ℕ → α) (start n : ℕ) :
    window cap cell (start % cap) n = window cap cell start n := by
  simp [window]

theorem window_add (cap : ℕ) (cell : ℕ → α) (start m n : ℕ) :
    window cap cell start (m + n) = window cap cell start m ++ window cap cell (start + m) n := by
  simp [window, List.range_add, Function.comp_def, Nat.add_assoc]

theorem window_cons (cap : ℕ) (cell : ℕ → α) (start n : ℕ) :
    window cap cell start (n + 1) = cell (start % cap) :: window cap cell (start + 1) n := by
  rw [Nat.add_comm n 1, window_add]
  simp [window]

theorem window_congr {cap : ℕ} {cell cell' : ℕ → α} {start n : ℕ}
    (h : ∀ i < n, cell ((start + i) % cap) = cell' ((start + i) % cap)) :
    window cap cell start n = window cap cell' start n := by
  apply List.map_congr_left
  intro i hi
  exact h i (List.mem_range.mp hi)

theorem window_update {cap start n : ℕ} (cell : ℕ → α) (a : α) (hn : n < cap) :
    window cap (Function.update cell ((start + n) % cap) a) start n = window cap cell start n := by
  apply window_congr
  intro i hi
  apply Function.update_of_ne
  intro h
  -- two offsets below the capacity that land on one cell are equal
  have hin : i ≡ n [MOD cap] := Nat.ModEq.add_left_cancel' start h
  have := hin.eq_of_lt_of_lt (hi.trans hn) hn
  omega

theorem window_push {cap start n : ℕ} (cell : ℕ → α) (a : α) (hn : n < cap) :
    window cap (Function.update cell ((start + n) % cap) a) start (n + 1) =
      window cap cell start n ++ [a] := by
  rw [window_succ, window_update cell a hn, Function.update_self]

/-! Free-running indices of `w` bits, of which the buffer takes the remainder: its capacity divides
`2 ^ w`. -/

section Ring

variable {w cap : ℕ} {cell : ℕ → α} {head mid tail : BitVec w}

theorem toNat_succ_sub (h : (tail - head).toNat + 1 < 2 ^ w) :
    (tail + 1 - head).toNat = (tail - head).toNat + 1 := by
  have hw : 0 < w := by
    rcases Nat.eq_zero_or_pos w with rfl | hw
    · omega
    · exact hw
  have hone : (1 : BitVec w).toNat = 1 := BitVec.toNat_one hw
  have hadd : tail + 1 - head = tail - head + 1 := by
    rw [BitVec.sub_eq_add_neg, BitVec.sub_eq_add_neg, BitVec.add_assoc, BitVec.add_comm 1,
      ← BitVec.add_assoc]
  rw [hadd, BitVec.toNat_add, hone, Nat.mod_eq_of_lt h]

theorem width_pos (h : head ≠ tail) : 0 < w := by
  rcases Nat.eq_zero_or_pos w with rfl | hw
  · exact absurd (Subsingleton.elim head tail) h
  · exact hw

theorem toNat_sub_succ (h : head ≠ tail) : (tail - head).toNat = (tail - (head + 1)).toNat + 1 := by
  have hone : (1 : BitVec w).toNat = 1 := BitVec.toNat_one (width_pos h)
  have hback : tail - head = tail - (head + 1) + 1 := by
    rw [BitVec.sub_eq_add_neg, BitVec.sub_eq_add_neg, BitVec.neg_add, BitVec.add_assoc,
      BitVec.sub_add_cancel]
  have hlast : (tail - (head + 1)).toNat + 1 ≠ 2 ^ w := by
    intro hlast
    have hzero : (tail - head).toNat = 0 := by rw [hback, BitVec.toNat_add, hone, hlast, Nat.mod_self]
    have hsub : tail - head = 0#w := BitVec.eq_of_toNat_eq (by rw [hzero, BitVec.toNat_zero])
    rw [BitVec.sub_eq_iff_eq_add, BitVec.zero_add] at hsub
    exact h hsub.symm
  have hlt := (tail - (head + 1)).isLt
  rw [hback, BitVec.toNat_add, hone, Nat.mod_eq_of_lt (by omega)]

def ring (cap : ℕ) (cell : ℕ → α) (head tail : BitVec w) : List α :=
  window cap cell head.toNat (tail - head).toNat

@[simp] theorem length_ring : (ring cap cell head tail).length = (tail - head).toNat := length_window ..

@[simp] theorem ring_self : ring cap cell head head = [] := by
  rw [ring, BitVec.sub_self]
  rfl

theorem ring_slot (hcap : cap ∣ 2 ^ w) : (head.toNat + (tail - head).toNat) % cap =
    tail.toNat % cap := by
  have hsum : tail.toNat = (head.toNat + (tail - head).toNat) % 2 ^ w := by
    rw [← BitVec.toNat_add]
    exact congrArg BitVec.toNat (by rw [BitVec.add_comm, BitVec.sub_add_cancel])
  rw [hsum, Nat.mod_mod_of_dvd _ hcap]

theorem ring_snoc (hcap : cap ∣ 2 ^ w) (h : (tail - head).toNat + 1 < 2 ^ w) :
    ring cap cell head (tail + 1) = ring cap cell head tail ++ [cell (tail.toNat % cap)] := by
  rw [ring, toNat_succ_sub h, window_succ, ring_slot hcap]
  rfl

theorem ring_cons (hcap : cap ∣ 2 ^ w) (h : head ≠ tail) :
    ring cap cell head tail = cell (head.toNat % cap) :: ring cap cell (head + 1) tail := by
  have hstart : (head + 1).toNat % cap = (head.toNat + 1) % cap := by
    have hone : (1 : BitVec w).toNat = 1 := BitVec.toNat_one (width_pos h)
    rw [BitVec.toNat_add, hone, Nat.mod_mod_of_dvd _ hcap]
  rw [ring, toNat_sub_succ h, window_cons, ring, ← window_mod cap cell (head + 1).toNat, hstart,
    window_mod]

theorem ring_take (h : (mid - head).toNat ≤ (tail - head).toNat) :
    ring cap cell head mid = (ring cap cell head tail).take (mid - head).toNat := by
  rw [ring, ring, window, window, ← List.map_take, List.take_range, Nat.min_eq_left h]

theorem eq_of_toNat_sub_eq (h : (mid - head).toNat = (tail - head).toNat) : mid = tail := by
  have hsub := BitVec.eq_of_toNat_eq h
  rwa [BitVec.sub_eq_iff_eq_add, BitVec.sub_add_cancel] at hsub

theorem ring_append (hcap : cap ∣ 2 ^ w) (h : (mid - head).toNat ≤ (tail - head).toNat) :
    ring cap cell head tail = ring cap cell head mid ++ ring cap cell mid tail := by
  have hrest : (tail - head).toNat = (mid - head).toNat + (tail - mid).toNat := by
    have hsub : tail - mid = tail - head - (mid - head) := by
      rw [eq_comm, BitVec.sub_eq_iff_eq_add, BitVec.sub_eq_iff_eq_add, BitVec.add_assoc,
        BitVec.sub_add_cancel,
        BitVec.sub_add_cancel]
    rw [hsub, BitVec.toNat_sub_of_le (BitVec.le_def.mpr h), Nat.add_sub_cancel' h]
  rw [ring, hrest, window_add, ← window_mod cap cell (head.toNat + _), ring_slot hcap, window_mod]
  rfl

theorem ring_update (hcap : cap ∣ 2 ^ w) (h : (tail - head).toNat < cap) (a : α) :
    ring cap (Function.update cell (tail.toNat % cap) a) head tail = ring cap cell head tail := by
  have hslot : (head.toNat + (tail - head).toNat) % cap = tail.toNat % cap := ring_slot hcap
  rw [ring, ← hslot]
  exact window_update cell a h

theorem ring_push (hcap : cap ∣ 2 ^ w) (hlt : cap < 2 ^ w) (h : (tail - head).toNat < cap) (a : α) :
    ring cap (Function.update cell (tail.toNat % cap) a) head (tail + 1) =
      ring cap cell head tail ++ [a] := by
  rw [ring_snoc hcap (by omega), ring_update hcap h, Function.update_self]

end Ring

end GcAos.Lib
