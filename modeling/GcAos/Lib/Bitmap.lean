import GcAos.Lib.Bytes
import Mathlib.Data.Nat.Bitwise

/-! Bitmaps kept in bytes: bit `i` is bit `i % 8` of byte `i / 8`. -/

namespace GcAos.Lib.Bytes

def bit (m : Bytes) (i : ℕ) : Bool := (m (i / 8)).toNat.testBit (i % 8)

def setBit (m : Bytes) (i : ℕ) : Bytes :=
  Function.update m (i / 8) (UInt8.ofNat ((m (i / 8)).toNat ||| 1 <<< (i % 8)))

def clearBit (m : Bytes) (i : ℕ) : Bytes :=
  Function.update m (i / 8) (UInt8.ofNat ((m (i / 8)).toNat &&& (2 ^ 8 - (1 <<< (i % 8) + 1))))

/-- Setting the `n` bits from `k` on, one after another. -/
def setBits (m : Bytes) (k n : ℕ) : Bytes := (List.range n).foldl (fun m i => m.setBit (k + i)) m

def clearBits (m : Bytes) (k n : ℕ) : Bytes := (List.range n).foldl (fun m i => m.clearBit (k + i)) m

/-- The first clear bit of the first `nbytes` bytes, unless it is at `limit` or after it. -/
def firstClear (m : Bytes) (nbytes limit : ℕ) : Option ℕ :=
  (List.range nbytes).findSome? fun byte =>
    if m byte = 0xFF then none
    else
      ((List.range 8).find? fun bit => !(m byte).toNat.testBit bit).bind fun bit =>
        if limit ≤ byte * 8 + bit then none else some (byte * 8 + bit)

/-- How many of the first `n` bits are clear. -/
def clearCount (m : Bytes) (n : ℕ) : ℕ := (List.range n).countP fun i => !m.bit i

variable {m m' : Bytes} {i j n : ℕ}

private theorem testBit_ofNat (v : ℕ) (hk : i < 8) :
    (UInt8.ofNat v).toNat.testBit i = v.testBit i := by
  rw [UInt8.toNat_ofNat', Nat.testBit_mod_two_pow]
  simp [hk]

private theorem index_eq_iff (h : j / 8 = i / 8) : i % 8 = j % 8 ↔ j = i := by omega

@[simp] theorem bit_setBit : (m.setBit i).bit j = (decide (j = i) || m.bit j) := by
  by_cases h : j / 8 = i / 8
  · have hk : j % 8 < 8 := Nat.mod_lt _ (by decide)
    rw [bit, setBit, h, Function.update_self, testBit_ofNat _ hk, Nat.testBit_or, bit, h,
      Nat.one_shiftLeft, Nat.testBit_two_pow, Bool.or_comm]
    simp only [index_eq_iff h]
  · have hne : j ≠ i := fun hji => h (by rw [hji])
    rw [bit, setBit, Function.update_of_ne h, bit]
    simp [hne]

@[simp] theorem bit_clearBit : (m.clearBit i).bit j = (!decide (j = i) && m.bit j) := by
  by_cases h : j / 8 = i / 8
  · have hk : j % 8 < 8 := Nat.mod_lt _ (by decide)
    have hpow : 1 <<< (i % 8) < 2 ^ 8 := by
      rw [Nat.one_shiftLeft]
      exact Nat.pow_lt_pow_right (by decide) (Nat.mod_lt _ (by decide))
    rw [bit, clearBit, h, Function.update_self, testBit_ofNat _ hk, Nat.testBit_and,
      Nat.testBit_two_pow_sub_succ hpow, bit, h, Nat.one_shiftLeft, Nat.testBit_two_pow,
      Bool.and_comm]
    simp only [index_eq_iff h, hk, decide_true, Bool.true_and]
  · have hne : j ≠ i := fun hji => h (by rw [hji])
    rw [bit, clearBit, Function.update_of_ne h, bit]
    simp [hne]

theorem setBit_apply_of_ne {k : ℕ} (h : k ≠ i / 8) : m.setBit i k = m k := Function.update_of_ne h _ _

theorem clearBit_apply_of_ne {k : ℕ} (h : k ≠ i / 8) : m.clearBit i k = m k :=
  Function.update_of_ne h _ _

theorem ext_bit (h : ∀ i, m.bit i = m'.bit i) : m = m' := by
  funext k
  apply UInt8.toNat_inj.mp
  apply Nat.eq_of_testBit_eq
  intro b
  by_cases hb : b < 8
  · have hdiv : (k * 8 + b) / 8 = k := by omega
    have hmod : (k * 8 + b) % 8 = b := by omega
    have hbit := h (k * 8 + b)
    rwa [bit, bit, hdiv, hmod] at hbit
  · have hpow : 2 ^ 8 ≤ 2 ^ b := Nat.pow_le_pow_right (by decide) (not_lt.mp hb)
    rw [Nat.testBit_lt_two_pow ((m k).toNat_lt.trans_le hpow),
      Nat.testBit_lt_two_pow ((m' k).toNat_lt.trans_le hpow)]

theorem clearBit_setBit (hclear : m.bit i = false) : (m.setBit i).clearBit i = m := by
  apply ext_bit
  intro j
  by_cases hji : j = i
  · simp [hji, hclear]
  · simp [hji]

theorem firstClear_eq_some {nbytes limit : ℕ} (h : m.firstClear nbytes limit = some i) :
    i < limit ∧ i < 8 * nbytes ∧ m.bit i = false := by
  obtain ⟨byte, hbyte, hsome⟩ := List.exists_of_findSome?_eq_some h
  split at hsome
  · cases hsome
  · obtain ⟨b, hfind, hb⟩ := Option.bind_eq_some_iff.mp hsome
    split at hb
    · cases hb
    · obtain rfl := Option.some.inj hb
      have hb8 : b < 8 := List.mem_range.mp (List.mem_of_find?_eq_some hfind)
      have hclear := List.find?_some hfind
      have hlt := List.mem_range.mp hbyte
      have hdiv : (byte * 8 + b) / 8 = byte := by omega
      have hmod : (byte * 8 + b) % 8 = b := by omega
      refine ⟨by omega, by omega, ?_⟩
      rw [bit, hdiv, hmod]
      simpa using hclear

theorem findSome?_range {α : Type*} {f : ℕ → Option α} {x : α}
    (h : (List.range n).findSome? f = some x) :
    ∃ k < n, f k = some x ∧ ∀ j < k, f j = none := by
  obtain ⟨l₁, k, l₂, heq, hk, hnone⟩ := List.findSome?_eq_some_iff.mp h
  have hsorted := List.pairwise_lt_range (n := n)
  rw [heq, List.pairwise_append, List.pairwise_cons] at hsorted
  have hmem : ∀ j, j ∈ l₁ ++ k :: l₂ ↔ j < n := fun j => by rw [← heq, List.mem_range]
  refine ⟨k, (hmem k).mp (by simp), hk, fun j hj => hnone j ?_⟩
  have hkn := (hmem k).mp (by simp)
  rcases List.mem_append.mp ((hmem j).mpr (hj.trans hkn)) with h | h
  · exact h
  · rcases List.mem_cons.mp h with rfl | h
    · exact absurd hj (lt_irrefl _)
    · exact absurd hj (not_lt.mpr (hsorted.2.1.1 j h).le)

private theorem byte_firstClear (byte : ℕ) (limit : ℕ) :
    (if m byte = 0xFF then none
      else ((List.range 8).find? fun bit => !(m byte).toNat.testBit bit).bind fun bit =>
        if limit ≤ byte * 8 + bit then none else some (byte * 8 + bit)) = none →
      ∀ b < 8, byte * 8 + b < limit → m.bit (byte * 8 + b) = true := by
  intro hnone b hb hlimit
  have hdiv : (byte * 8 + b) / 8 = byte := by omega
  have hmod : (byte * 8 + b) % 8 = b := by omega
  rw [bit, hdiv, hmod]
  split at hnone
  next hfull =>
    rw [hfull]
    interval_cases b <;> decide
  next =>
    by_contra hclear
    rw [Bool.not_eq_true] at hclear
    cases hfind : (List.range 8).find? fun bit => !(m byte).toNat.testBit bit with
    | none =>
      have := List.find?_eq_none.mp hfind b (List.mem_range.mpr hb)
      simp [hclear] at this
    | some c =>
      have hcb : ¬b < c := by
        intro hlt
        have := (List.find?_range_eq_some.mp hfind).2.2 b hlt
        simp [hclear] at this
      rw [hfind, Option.bind_some, if_neg (by omega)] at hnone
      cases hnone

theorem firstClear_eq_none {nbytes limit : ℕ} (h : m.firstClear nbytes limit = none) {j : ℕ}
    (hlimit : j < limit) (hj : j < 8 * nbytes) : m.bit j = true := by
  have hbyte := List.findSome?_eq_none_iff.mp h (j / 8) (List.mem_range.mpr (by omega))
  have hsplit : j / 8 * 8 + j % 8 = j := by omega
  have hset := byte_firstClear (j / 8) limit hbyte (j % 8) (Nat.mod_lt _ (by decide)) (by omega)
  rwa [hsplit] at hset

theorem firstClear_first {nbytes limit : ℕ} (h : m.firstClear nbytes limit = some i) {j : ℕ}
    (hj : j < i) : m.bit j = true := by
  have hlimit := (firstClear_eq_some h).1
  obtain ⟨byte, -, hsome, hnone⟩ := findSome?_range h
  have hsplit : j / 8 * 8 + j % 8 = j := by omega
  by_cases hbyte : j / 8 < byte
  · have hset := byte_firstClear (j / 8) limit (hnone _ hbyte) (j % 8) (Nat.mod_lt _ (by decide))
      (by omega)
    rwa [hsplit] at hset
  · split at hsome
    · cases hsome
    · obtain ⟨b, hfind, hb⟩ := Option.bind_eq_some_iff.mp hsome
      split at hb
      · cases hb
      · obtain rfl := Option.some.inj hb
        have hb8 : b < 8 := List.mem_range.mp (List.mem_of_find?_eq_some hfind)
        have hdiv : j / 8 = byte := by omega
        have hset := (List.find?_range_eq_some.mp hfind).2.2 (j % 8) (by omega)
        rw [bit, hdiv]
        simpa using hset

theorem clearCount_congr (h : ∀ i < n, m.bit i = m'.bit i) : m.clearCount n = m'.clearCount n := by
  apply List.countP_congr
  intro i hi
  rw [h i (List.mem_range.mp hi)]

private theorem clearCount_succ : m.clearCount (n + 1) = m.clearCount n + (!m.bit n).toNat := by
  rw [clearCount, List.range_succ, List.countP_append, clearCount]
  cases h : m.bit n <;> simp [h]

theorem clearCount_setBit (hi : i < n) (hclear : m.bit i = false) :
    (m.setBit i).clearCount n + 1 = m.clearCount n := by
  induction n with
  | zero => omega
  | succ n ih =>
    rw [clearCount_succ, clearCount_succ, bit_setBit]
    rcases Nat.lt_succ_iff_lt_or_eq.mp hi with hlt | rfl
    · have hne : n ≠ i := by omega
      rw [← ih hlt]
      simp [hne, Nat.add_right_comm]
    · have hsame : (m.setBit i).clearCount i = m.clearCount i := by
        apply clearCount_congr
        intro j hj
        simp [hj.ne]
      simp [hsame, hclear]

theorem clearCount_clearBit (hi : i < n) (hset : m.bit i = true) :
    (m.clearBit i).clearCount n = m.clearCount n + 1 := by
  have hback := clearCount_setBit (m := m.clearBit i) hi (by simp)
  rw [← hback]
  congr 1
  apply clearCount_congr
  intro j _
  by_cases hji : j = i
  · simp [hji, hset]
  · simp [hji]

/-! ## Runs of bits -/

variable {k l : ℕ}

theorem setBits_succ (m : Bytes) (k n : ℕ) : m.setBits k (n + 1) = (m.setBits k n).setBit (k + n) := by
  rw [setBits, List.range_succ, List.foldl_append]
  rfl

theorem clearBits_succ (m : Bytes) (k n : ℕ) :
    m.clearBits k (n + 1) = (m.clearBits k n).clearBit (k + n) := by
  rw [clearBits, List.range_succ, List.foldl_append]
  rfl

theorem bit_setBits : (m.setBits k l).bit j = true ↔ k ≤ j ∧ j < k + l ∨ m.bit j = true := by
  induction l with
  | zero =>
    have hempty : ¬(k ≤ j ∧ j < k + 0) := by omega
    exact (or_iff_right hempty).symm
  | succ l ih =>
    rw [setBits_succ, bit_setBit, Bool.or_eq_true, decide_eq_true_eq, ih, ← or_assoc]
    exact or_congr_left (by omega)

theorem bit_clearBits : (m.clearBits k l).bit j = true ↔ ¬(k ≤ j ∧ j < k + l) ∧ m.bit j = true := by
  induction l with
  | zero =>
    have hempty : ¬(k ≤ j ∧ j < k + 0) := by omega
    exact (and_iff_right hempty).symm
  | succ l ih =>
    rw [clearBits_succ, bit_clearBit, Bool.and_eq_true, Bool.not_eq_true', decide_eq_false_iff_not, ih,
      ← and_assoc]
    exact and_congr_left fun _ => by omega

theorem clearBits_setBits (hclear : ∀ j, k ≤ j → j < k + l → m.bit j = false) :
    (m.setBits k l).clearBits k l = m := by
  apply ext_bit
  intro j
  rw [Bool.eq_iff_iff, bit_clearBits, bit_setBits]
  constructor
  · rintro ⟨hout, hin | hset⟩
    · exact absurd hin hout
    · exact hset
  · intro hset
    refine ⟨fun hin => ?_, .inr hset⟩
    rw [hclear j hin.1 hin.2] at hset
    cases hset

theorem clearCount_setBits (hn : k + l ≤ n) (hclear : ∀ j, k ≤ j → j < k + l → m.bit j = false) :
    (m.setBits k l).clearCount n + l = m.clearCount n := by
  induction l with
  | zero => rfl
  | succ l ih =>
    have hlast : (m.setBits k l).bit (k + l) = false := by
      rw [← Bool.not_eq_true, bit_setBits, hclear (k + l) (by omega) (by omega)]
      simp
    have hrest := ih (by omega) fun j hk hj => hclear j hk (by omega)
    rw [setBits_succ, ← hrest, ← clearCount_setBit (i := k + l) (by omega) hlast]
    omega

theorem clearCount_clearBits (hn : k + l ≤ n) (hset : ∀ j, k ≤ j → j < k + l → m.bit j = true) :
    (m.clearBits k l).clearCount n = m.clearCount n + l := by
  induction l with
  | zero => rfl
  | succ l ih =>
    have hlast : (m.clearBits k l).bit (k + l) = true :=
      bit_clearBits.mpr ⟨by omega, hset (k + l) (by omega) (by omega)⟩
    rw [clearBits_succ, clearCount_clearBit (by omega) hlast,
      ih (by omega) fun j hk hj => hset j hk (by omega)]
    omega

theorem clearCount_le : m.clearCount n ≤ n := by
  simpa [clearCount] using List.countP_le_length (l := List.range n) (p := fun i => !m.bit i)

end GcAos.Lib.Bytes
