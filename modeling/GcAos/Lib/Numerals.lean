import Mathlib.Data.Nat.Digits.Lemmas
import Mathlib.Tactic

/-! Numerals as strings of bytes, the loop that divides a number down to its digits, and the loop that
puts the number together again. -/

namespace GcAos.Lib

def isDigit (c : UInt8) : Bool := 48 ≤ c && c ≤ 57

def digitChar (d : ℕ) : UInt8 := UInt8.ofNat (if d < 10 then 48 + d else 87 + d)

def numeral (base n : ℕ) : List UInt8 :=
  if n = 0 then [48] else ((Nat.digits base n).map digitChar).reverse

/-- The digits of `v`, the last one first, of which there are at most `fuel`. -/
def digitLoop (digit : ℕ → UInt8) (base : ℕ) : ℕ → ℕ → List UInt8
  | 0, _ => []
  | fuel + 1, v => if v = 0 then [] else digit (v % base) :: digitLoop digit base fuel (v / base)

/-- The number whose decimal digits follow those of `v`. -/
def readDigits (v : ℕ) (l : List UInt8) : ℕ := l.foldl (fun v c => v * 10 + (c.toNat - 48)) v

variable {base n fuel v : ℕ} {c : UInt8} {l : List UInt8} {digit : ℕ → UInt8}

theorem digitLoop_eq (hb : 1 < base) (h : v < base ^ fuel) :
    digitLoop digit base fuel v = (Nat.digits base v).map digit := by
  induction fuel generalizing v with
  | zero =>
    obtain rfl : v = 0 := by simpa using h
    rw [Nat.digits_zero]
    rfl
  | succ fuel ih =>
    rw [digitLoop]
    split
    · next hv => rw [hv, Nat.digits_zero, List.map_nil]
    · next hv =>
      have hdiv : v / base < base ^ fuel := Nat.div_lt_of_lt_mul (by rwa [pow_succ, mul_comm] at h)
      rw [ih hdiv, Nat.digits_def' hb (Nat.pos_of_ne_zero hv), List.map_cons]

theorem reverse_digitLoop (hb : 1 < base) (h : v < base ^ fuel) :
    (if v = 0 then [48] else digitLoop digitChar base fuel v).reverse = numeral base v := by
  rw [digitLoop_eq hb h, numeral]
  split <;> rfl

theorem numeral_ne_nil (base n : ℕ) : numeral base n ≠ [] := by
  rw [numeral]
  split
  · exact List.cons_ne_nil _ _
  · next hn =>
    rw [ne_eq, List.reverse_eq_nil_iff, List.map_eq_nil_iff]
    exact Nat.digits_ne_nil_iff_ne_zero.mpr hn

theorem numeral_length_pos (base n : ℕ) : 0 < (numeral base n).length :=
  List.length_pos_of_ne_nil (numeral_ne_nil base n)

theorem lt_pow_length (hb : 1 < base) : n < base ^ (numeral base n).length := by
  rw [numeral]
  split
  · next hn =>
    rw [hn]
    exact Nat.pow_pos (by omega)
  · rw [List.length_reverse, List.length_map]
    exact Nat.lt_base_pow_length_digits hb

theorem digitChar_toNat {d : ℕ} (h : d < 16) : (digitChar d).toNat = if d < 10 then 48 + d else 87 + d := by
  rw [digitChar, UInt8.toNat_ofNat']
  split <;> omega

theorem isDigit_iff : isDigit c ↔ 48 ≤ c.toNat ∧ c.toNat ≤ 57 := by
  rw [isDigit, Bool.and_eq_true, decide_eq_true_iff, decide_eq_true_iff, UInt8.le_iff_toNat_le,
    UInt8.le_iff_toNat_le]
  rfl

theorem exists_digit_of_mem (hb : 1 < base) (hc : c ∈ numeral base n) : ∃ d < base, c = digitChar d := by
  rw [numeral] at hc
  split at hc
  · exact ⟨0, by omega, List.mem_singleton.mp hc⟩
  · obtain ⟨d, hd, rfl⟩ := List.mem_map.mp (List.mem_reverse.mp hc)
    exact ⟨d, Nat.digits_lt_base hb hd, rfl⟩

theorem isDigit_of_mem (hc : c ∈ numeral 10 n) : isDigit c := by
  obtain ⟨d, hd, rfl⟩ := exists_digit_of_mem (by decide) hc
  rw [isDigit_iff, digitChar_toNat (by omega), if_pos hd]
  omega

theorem head_numeral (hb : 1 < base) (hb' : base ≤ 16) : (numeral base n).head? = some 48 ↔ n = 0 := by
  constructor
  · intro h
    by_contra hn
    have hdigits := Nat.digits_ne_nil_iff_ne_zero (b := base).mpr hn
    have hlt := Nat.digits_lt_base hb (List.getLast_mem hdigits)
    rw [numeral, if_neg hn, List.head?_reverse, List.getLast?_map, List.getLast?_eq_some_getLast hdigits,
      Option.map_some, Option.some_inj] at h
    have hnat := congrArg UInt8.toNat h
    rw [digitChar_toNat (by omega)] at hnat
    have hne := Nat.getLast_digit_ne_zero base hn
    have h48 : (48 : UInt8).toNat = 48 := rfl
    rw [h48] at hnat
    split at hnat <;> omega
  · rintro rfl
    rfl

theorem foldl_numeral {value : UInt8 → ℕ} (hb : 1 < base) (hvalue : ∀ d < base, value (digitChar d) = d)
    (n : ℕ) : (numeral base n).foldl (fun v c => v * base + value c) 0 = n := by
  by_cases hn : n = 0
  · rw [numeral, if_pos hn, hn, List.foldl_cons, List.foldl_nil, zero_mul, zero_add]
    exact hvalue 0 (by omega)
  · rw [numeral, if_neg hn, List.foldl_reverse, List.foldr_map]
    conv_rhs => rw [← Nat.ofDigits_digits base n, Nat.ofDigits_eq_foldr]
    refine List.foldr_ext _ _ _ fun d hd v => ?_
    rw [hvalue d (Nat.digits_lt_base hb hd), Nat.cast_id]
    ring

theorem foldl_zeros {value : UInt8 → ℕ} (hvalue : value 48 = 0) (k : ℕ) (l : List UInt8) :
    (List.replicate k 48 ++ l).foldl (fun v c => v * base + value c) 0 =
      l.foldl (fun v c => v * base + value c) 0 := by
  induction k with
  | zero => rfl
  | succ k ih =>
    rw [List.replicate_succ, List.cons_append, List.foldl_cons, hvalue, zero_mul, ih]

theorem digit_value {d : ℕ} (h : d < 10) : (digitChar d).toNat - 48 = d := by
  rw [digitChar_toNat (by omega), if_pos h]
  omega

theorem readDigits_numeral (n : ℕ) : readDigits 0 (numeral 10 n) = n :=
  foldl_numeral (by decide) (fun _ => digit_value) n

theorem readDigits_zeros (k : ℕ) (l : List UInt8) :
    readDigits 0 (List.replicate k 48 ++ l) = readDigits 0 l := foldl_zeros rfl k l

theorem span_append {s : List UInt8} {p : UInt8 → Bool} (hl : ∀ c ∈ l, p c) (hs : ∀ c ∈ s.head?, p c = false) :
    (l ++ s).takeWhile p = l ∧ (l ++ s).dropWhile p = s := by
  rw [List.takeWhile_append_of_pos hl, List.dropWhile_append_of_pos hl]
  cases s with
  | nil => exact ⟨List.append_nil l, rfl⟩
  | cons c s =>
    have hc : ¬p c = true := by
      rw [hs c rfl]
      decide
    exact ⟨by rw [List.takeWhile_cons_of_neg hc, List.append_nil], List.dropWhile_cons_of_neg hc⟩

end GcAos.Lib
