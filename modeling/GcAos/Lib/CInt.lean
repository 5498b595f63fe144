import Mathlib.Data.Int.Init
import Mathlib.Tactic

/-! The values of a 32-bit `int`, whose arithmetic wraps around. -/

namespace GcAos.Lib

def IsInt (v : ℤ) : Prop := -2 ^ 31 ≤ v ∧ v < 2 ^ 31

instance (v : ℤ) : Decidable (IsInt v) := inferInstanceAs (Decidable (_ ∧ _))

def toInt (v : ℤ) : ℤ := v.bmod (2 ^ 32)

variable {v : ℤ}

theorem isInt_toInt (v : ℤ) : IsInt (toInt v) := by
  have hlow : -2 ^ 31 ≤ toInt v := Int.le_bmod (by decide)
  have hhigh : toInt v < 2 ^ 31 := Int.bmod_lt (by decide)
  exact ⟨hlow, hhigh⟩

theorem toInt_of_isInt (h : IsInt v) : toInt v = v := by
  obtain ⟨hlow, hhigh⟩ := h
  exact Int.bmod_eq_of_le (by omega) (by omega)

theorem toInt_natCast {n : ℕ} (h : n < 2 ^ 31) : toInt n = n := toInt_of_isInt ⟨by omega, by exact_mod_cast h⟩

theorem exists_toInt (v : ℤ) : ∃ k, toInt v = v + 2 ^ 32 * k := by
  obtain ⟨k, hk⟩ : ((2 ^ 32 : ℕ) : ℤ) ∣ toInt v - v := Int.dvd_bmod_sub_self
  exact ⟨k, by omega⟩

end GcAos.Lib
