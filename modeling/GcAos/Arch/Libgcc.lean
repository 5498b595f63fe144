import Mathlib.Data.Nat.Bitwise
import Mathlib.Tactic.Ring

/-! The 64-bit division of `kernel/arch/x86/libgcc.c`, one bit of the dividend a turn. -/

namespace GcAos.Arch

/-- The loop of `__udivdi3` from bit `i - 1` down, on the quotient and the remainder so far. -/
def udivLoop (n d : BitVec 64) : ℕ → BitVec 64 → BitVec 64 → BitVec 64
  | 0, q, _ => q
  | i + 1, q, r =>
    let r' := (r <<< 1) ||| ((n >>> i) &&& 1)
    if d ≤ r' then udivLoop n d i (q ||| (1#64 <<< i)) (r' - d) else udivLoop n d i q r'

def udivdi3 (n d : BitVec 64) : BitVec 64 := udivLoop n d 64 0 0

def umodLoop (n d : BitVec 64) : ℕ → BitVec 64 → BitVec 64
  | 0, r => r
  | i + 1, r =>
    let r' := (r <<< 1) ||| ((n >>> i) &&& 1)
    if d ≤ r' then umodLoop n d i (r' - d) else umodLoop n d i r'

def umoddi3 (n d : BitVec 64) : BitVec 64 := umodLoop n d 64 0

/-- The negations wrap, as those of the machine do. -/
def divdi3 (n d : BitVec 64) : BitVec 64 :=
  let (n', neg) := if n.slt 0#64 then (-n, true) else (n, false)
  let (d', neg) := if d.slt 0#64 then (-d, !neg) else (d, neg)
  let q := udivdi3 n' d'
  if neg then -q else q

def moddi3 (n d : BitVec 64) : BitVec 64 :=
  let (n', neg) := if n.slt 0#64 then (-n, true) else (n, false)
  let d' := if d.slt 0#64 then -d else d
  let r := umoddi3 n' d'
  if neg then -r else r

/-! One turn. -/

/-- With one more bit the quotient doubles, and is one more where the doubled remainder holds the
divisor; without a divisor the remainder is all there is. -/
theorem div_mod_double (m d b : ℕ) (hb : b < 2) :
    (2 * m + b) % d = (if d ≤ 2 * (m % d) + b then 2 * (m % d) + b - d else 2 * (m % d) + b) ∧
      (0 < d → (2 * m + b) / d = 2 * (m / d) + if d ≤ 2 * (m % d) + b then 1 else 0) := by
  obtain rfl | hd := Nat.eq_zero_or_pos d
  · simp
  have hlt := Nat.mod_lt m hd
  have hm := Nat.mod_add_div m d
  suffices h : (2 * m + b) / d = 2 * (m / d) + (if d ≤ 2 * (m % d) + b then 1 else 0) ∧
      (2 * m + b) % d = if d ≤ 2 * (m % d) + b then 2 * (m % d) + b - d else 2 * (m % d) + b from
    ⟨h.2, fun _ => h.1⟩
  rw [Nat.div_mod_unique hd]
  have hdouble : d * (2 * (m / d)) = 2 * (d * (m / d)) := by ring
  split
  · refine ⟨?_, by omega⟩
    rw [Nat.mul_add, Nat.mul_one, hdouble]
    omega
  · refine ⟨?_, by omega⟩
    rw [Nat.add_zero, hdouble]
    omega

variable {n d : BitVec 64}

/-- What the quotient and the remainder are once the bits from `i` on are done. -/
def remAt (n d i : ℕ) : ℕ := n / 2 ^ i % d

def quotAt (n d i : ℕ) : ℕ := n / 2 ^ i / d * 2 ^ i

theorem div_two_pow (n i : ℕ) : n / 2 ^ i = 2 * (n / 2 ^ (i + 1)) + n / 2 ^ i % 2 := by
  rw [Nat.pow_succ, ← Nat.div_div_eq_div_mul]
  omega

/-- No bit is lost by the shift: the remainder is at most what the bits done so far say. -/
theorem toNat_shift {r : BitVec 64} {i : ℕ} (hr : r.toNat = remAt n.toNat d.toNat (i + 1)) :
    ((r <<< 1) ||| ((n >>> i) &&& 1)).toNat =
      2 * remAt n.toNat d.toNat (i + 1) + n.toNat / 2 ^ i % 2 := by
  have hn := n.isLt
  have hbit : ((n >>> i) &&& 1).toNat = n.toNat / 2 ^ i % 2 := by
    rw [BitVec.toNat_and, BitVec.toNat_ushiftRight, Nat.shiftRight_eq_div_pow]
    exact Nat.and_one_is_mod _
  have hsmall : r.toNat < 2 ^ 63 := by
    calc r.toNat ≤ n.toNat / 2 ^ (i + 1) := hr ▸ Nat.mod_le _ _
      _ ≤ n.toNat / 2 ^ 1 := Nat.div_le_div_left (Nat.pow_le_pow_right (by decide) (by omega)) (by decide)
      _ < 2 ^ 63 := by omega
  have hshift : (r <<< 1).toNat = 2 ^ 1 * r.toNat := by
    rw [BitVec.toNat_shiftLeft, Nat.shiftLeft_eq, Nat.mod_eq_of_lt (by omega), Nat.mul_comm]
  rw [BitVec.toNat_or, hbit, hshift, ← Nat.two_pow_add_eq_or_of_lt (Nat.mod_lt _ (by decide)), ← hr]

theorem bit_lt (n : BitVec 64) (i : ℕ) : n.toNat / 2 ^ i % 2 < 2 := Nat.mod_lt _ (by decide)

theorem remAt_eq (n d : BitVec 64) (i : ℕ) :
    remAt n.toNat d.toNat i =
      let r' := 2 * remAt n.toNat d.toNat (i + 1) + n.toNat / 2 ^ i % 2
      if d.toNat ≤ r' then r' - d.toNat else r' := by
  have h := (div_mod_double (n.toNat / 2 ^ (i + 1)) d.toNat _ (bit_lt n i)).1
  rwa [← div_two_pow] at h

theorem quotAt_eq (n : BitVec 64) (i : ℕ) (hd : 0 < d.toNat) :
    quotAt n.toNat d.toNat i = quotAt n.toNat d.toNat (i + 1) +
      if d.toNat ≤ 2 * remAt n.toNat d.toNat (i + 1) + n.toNat / 2 ^ i % 2 then 2 ^ i else 0 := by
  have h := (div_mod_double (n.toNat / 2 ^ (i + 1)) d.toNat _ (bit_lt n i)).2 hd
  rw [← div_two_pow] at h
  rw [quotAt, h, Nat.add_mul, ite_mul, Nat.one_mul, Nat.zero_mul, quotAt, remAt, Nat.pow_succ]
  congr 1
  ring

theorem umodLoop_toNat (i : ℕ) (r : BitVec 64) (hr : r.toNat = remAt n.toNat d.toNat i) :
    (umodLoop n d i r).toNat = n.toNat % d.toNat := by
  induction i generalizing r with
  | zero => rw [umodLoop, hr, remAt, Nat.pow_zero, Nat.div_one]
  | succ i ih =>
    have hshift := toNat_shift hr
    have hrem := remAt_eq n d i
    simp only [umodLoop, BitVec.le_def]
    split
    · refine ih _ ?_
      rw [BitVec.toNat_sub_of_le ‹_›, hrem, ← hshift, if_pos ‹_›]
    · refine ih _ ?_
      rw [hrem, ← hshift, if_neg ‹_›]

theorem umoddi3_eq (n d : BitVec 64) : umoddi3 n d = n % d := by
  apply BitVec.eq_of_toNat_eq
  rw [BitVec.toNat_umod]
  apply umodLoop_toNat
  rw [remAt, Nat.div_eq_of_lt n.isLt, Nat.zero_mod]
  rfl

theorem toNat_setBit {q : BitVec 64} {i k : ℕ} (hi : i < 64) (hq : q.toNat = k * 2 ^ (i + 1)) :
    (q ||| (1#64 <<< i)).toNat = q.toNat + 2 ^ i := by
  have hbit : (1#64 <<< i).toNat = 2 ^ i := by
    rw [BitVec.toNat_shiftLeft, Nat.shiftLeft_eq]
    exact (Nat.mod_eq_of_lt (by simpa using Nat.pow_lt_pow_right Nat.one_lt_two hi)).trans (Nat.one_mul _)
  rw [BitVec.toNat_or, hbit, hq, Nat.mul_comm k]
  exact (Nat.two_pow_add_eq_or_of_lt (Nat.pow_lt_pow_right (by decide) (by omega)) k).symm

theorem udivLoop_toNat (hd : 0 < d.toNat) (i : ℕ) (q r : BitVec 64) (hi : i ≤ 64)
    (hq : q.toNat = quotAt n.toNat d.toNat i) (hr : r.toNat = remAt n.toNat d.toNat i) :
    (udivLoop n d i q r).toNat = n.toNat / d.toNat := by
  induction i generalizing q r with
  | zero => rw [udivLoop, hq, quotAt, Nat.pow_zero, Nat.div_one, Nat.mul_one]
  | succ i ih =>
    have hshift := toNat_shift hr
    have hrem := remAt_eq n d i
    have hquot := quotAt_eq n i hd
    simp only [udivLoop, BitVec.le_def]
    split
    · refine ih _ _ (Nat.le_of_succ_le hi) ?_ ?_
      · rw [toNat_setBit hi hq, hq, hquot, ← hshift, if_pos ‹_›]
      · rw [BitVec.toNat_sub_of_le ‹_›, hrem, ← hshift, if_pos ‹_›]
    · refine ih _ _ (Nat.le_of_succ_le hi) ?_ ?_
      · rw [hq, hquot, ← hshift, if_neg ‹_›]
        rfl
      · rw [hrem, ← hshift, if_neg ‹_›]

/-- Without a divisor every turn sets its bit, whatever the dividend is. -/
theorem udivLoop_zero (n q r : BitVec 64) (i : ℕ) : udivLoop n 0 i q r = udivLoop 0 0 i q 0 := by
  induction i generalizing n q r with
  | zero => rfl
  | succ i ih =>
    have hle (r : BitVec 64) : 0 ≤ r := Nat.zero_le _
    simp only [udivLoop, hle, if_true]
    exact (ih ..).trans (ih ..).symm

theorem udivdi3_eq (n d : BitVec 64) : udivdi3 n d = if d = 0 then -1 else n / d := by
  split
  · subst d
    exact (udivLoop_zero n 0 0 64).trans (by decide)
  · have hd : 0 < d.toNat := by
      rw [Nat.pos_iff_ne_zero, ne_eq, ← BitVec.toNat_zero, BitVec.toNat_inj]
      exact ‹_›
    apply BitVec.eq_of_toNat_eq
    rw [BitVec.toNat_udiv]
    apply udivLoop_toNat hd 64 0 0 (Nat.le_refl 64)
    · rw [quotAt, Nat.div_eq_of_lt n.isLt, Nat.zero_div, Nat.zero_mul]
      rfl
    · rw [remAt, Nat.div_eq_of_lt n.isLt, Nat.zero_mod]
      rfl

/-- `__udivdi3` and `__umoddi3` divide, whatever the operands are, and without a divisor return all
ones and the dividend. -/
theorem udivdi3_umoddi3 (n d : BitVec 64) :
    udivdi3 n d = (if d = 0 then -1 else n / d) ∧ umoddi3 n d = n % d ∧
      (d ≠ 0 → (udivdi3 n d).toNat * d.toNat + (umoddi3 n d).toNat = n.toNat) := by
  refine ⟨udivdi3_eq n d, umoddi3_eq n d, fun hd => ?_⟩
  rw [udivdi3_eq, if_neg hd, umoddi3_eq, BitVec.toNat_udiv, BitVec.toNat_umod, Nat.mul_comm]
  exact Nat.div_add_mod ..

/-! The signed division. -/

theorem divdi3_eq (n : BitVec 64) (hd : d ≠ 0) : divdi3 n d = n.sdiv d := by
  have hpos (m : BitVec 64) : udivdi3 m d = m / d := by rw [udivdi3_eq, if_neg hd]
  have hneg (m : BitVec 64) : udivdi3 m (-d) = m / -d := by
    rw [udivdi3_eq, if_neg (by simpa using hd)]
  unfold divdi3 BitVec.sdiv
  rw [BitVec.slt_zero_eq_msb, BitVec.slt_zero_eq_msb]
  cases n.msb <;> cases d.msb <;> simp [hpos, hneg]

theorem moddi3_eq (n d : BitVec 64) : moddi3 n d = n.srem d := by
  unfold moddi3 BitVec.srem
  rw [BitVec.slt_zero_eq_msb, BitVec.slt_zero_eq_msb]
  cases n.msb <;> cases d.msb <;> simp [umoddi3_eq]

/-- `__divdi3` and `__moddi3` divide towards zero, whatever the signs; only the quotient can wrap. -/
theorem divdi3_moddi3 (n d : BitVec 64) :
    (d ≠ 0 → (divdi3 n d).toInt = (n.toInt.tdiv d.toInt).bmod (2 ^ 64)) ∧
      (moddi3 n d).toInt = n.toInt.tmod d.toInt := by
  refine ⟨fun hd => ?_, ?_⟩
  · rw [divdi3_eq n hd, BitVec.toInt_sdiv]
  · rw [moddi3_eq, BitVec.toInt_srem]

end GcAos.Arch
