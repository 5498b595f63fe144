import GcAos.Lib.Bytes

/-! Memory that holds lists of bytes, and numbers in it with their highest byte first. -/

namespace GcAos.Lib

theorem mul_two_pow_or {x y k : ℕ} (h : y < 2 ^ k) : x * 2 ^ k ||| y = x * 2 ^ k + y := by
  rw [← Nat.shiftLeft_eq, Nat.shiftLeft_add_eq_or_of_lt h]

namespace Bytes

variable {m : Bytes} {a w v : ℕ} {b : UInt8} {l l' : List UInt8}

/-- The memory holds the list from `a` on. -/
def Has (m : Bytes) (a : ℕ) (l : List UInt8) : Prop := ∀ i b, l[i]? = some b → m (a + i) = b

theorem has_iff : m.Has a l ↔ ∀ i (hi : i < l.length), m (a + i) = l[i] := by
  constructor
  · exact fun h i hi => h i _ (List.getElem?_eq_getElem hi)
  · intro h i b hb
    obtain ⟨hi, rfl⟩ := List.getElem?_eq_some_iff.mp hb
    exact h i hi

instance (m : Bytes) (a : ℕ) (l : List UInt8) : Decidable (m.Has a l) := decidable_of_iff _ has_iff.symm

theorem Has.head (h : m.Has a (b :: l)) : m a = b := h 0 b rfl

theorem Has.tail (h : m.Has a (b :: l)) : m.Has (a + 1) l := by
  intro i c hc
  rw [Nat.add_assoc, Nat.add_comm 1]
  exact h (i + 1) c hc

theorem Has.cons (hb : m a = b) (h : m.Has (a + 1) l) : m.Has a (b :: l) := by
  intro i c hc
  cases i with
  | zero => exact hb.trans (Option.some.inj hc)
  | succ i =>
    rw [Nat.add_comm i, ← Nat.add_assoc]
    exact h i c hc

theorem Has.left (h : m.Has a (l ++ l')) : m.Has a l := by
  intro i c hc
  refine h i c ?_
  rw [List.getElem?_append_left (List.getElem?_eq_some_iff.mp hc).1]
  exact hc

theorem Has.right (h : m.Has a (l ++ l')) : m.Has (a + l.length) l' := by
  intro i c hc
  rw [Nat.add_assoc]
  refine h _ c ?_
  rw [List.getElem?_append_right (Nat.le_add_right _ _), Nat.add_sub_cancel_left]
  exact hc

def beLoad (m : Bytes) (a : ℕ) : ℕ → ℕ
  | 0 => 0
  | w + 1 => (m a).toNat * 256 ^ w + beLoad m (a + 1) w

theorem beLoad_add (m : Bytes) (a w w' : ℕ) :
    m.beLoad a (w + w') = m.beLoad a w * 256 ^ w' + m.beLoad (a + w) w' := by
  induction w generalizing a with
  | zero => rw [Nat.zero_add, beLoad, Nat.zero_mul, Nat.zero_add, Nat.add_zero]
  | succ w ih =>
    rw [Nat.add_right_comm, beLoad, beLoad, ih, Nat.pow_add, Nat.add_assoc a, Nat.add_comm 1]
    ring

/-- The last `w` digits of `v` to the base 256. -/
def beDigits : ℕ → ℕ → List UInt8
  | 0, _ => []
  | w + 1, v => UInt8.ofNat (v / 256 ^ w) :: beDigits w v

@[simp] theorem length_beDigits (w v : ℕ) : (beDigits w v).length = w := by
  induction w with
  | zero => rfl
  | succ w ih => exact congrArg (· + 1) ih

theorem Has.beLoad (h : m.Has a (beDigits w v)) : m.beLoad a w = v % 256 ^ w := by
  induction w generalizing a with
  | zero => exact (Nat.mod_one v).symm
  | succ w ih =>
    have hpow : v % 256 ^ (w + 1) = v % 256 ^ w + 256 ^ w * (v / 256 ^ w % 256) := Nat.mod_pow_succ
    rw [Bytes.beLoad, h.head, ih h.tail, UInt8.toNat_ofNat', hpow, Nat.add_comm, Nat.mul_comm]

theorem beLoad_congr {m' : Bytes} {a' : ℕ} (h : ∀ i < w, m (a + i) = m' (a' + i)) :
    m.beLoad a w = m'.beLoad a' w := by
  induction w generalizing a a' with
  | zero => rfl
  | succ w ih =>
    have hhead : m a = m' a' := h 0 (Nat.succ_pos w)
    rw [beLoad, beLoad, hhead, ih]
    intro i hi
    rw [Nat.add_assoc, Nat.add_assoc, Nat.add_comm 1]
    exact h (i + 1) (Nat.succ_lt_succ hi)

end Bytes

end GcAos.Lib
