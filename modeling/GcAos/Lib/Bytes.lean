import Mathlib.Tactic

/-! Byte-addressed memory with little-endian loads and stores, and records laid out in it. -/

namespace GcAos.Lib

abbrev Bytes := ℕ → UInt8

namespace Bytes

/-- `m` with the `n` bytes from `a` on replaced by the first `n` bytes of `src`. -/
def blit (m : Bytes) (a n : ℕ) (src : Bytes) : Bytes :=
  fun i => if a ≤ i ∧ i < a + n then src (i - a) else m i

def load (m : Bytes) (a : ℕ) : ℕ → ℕ
  | 0 => 0
  | n + 1 => (m a).toNat + 256 * load m (a + 1) n

def store (m : Bytes) (a n v : ℕ) : Bytes := m.blit a n fun i => UInt8.ofNat (v / 256 ^ i)

theorem blit_of_mem {m src : Bytes} {a n i : ℕ} (h : i < n) : m.blit a n src (a + i) = src i := by
  simp [blit, h]

theorem blit_zero {m src : Bytes} {n i : ℕ} (h : i < n) : m.blit 0 n src i = src i := by
  simp [blit, h]

theorem blit_of_lt {m src : Bytes} {a n i : ℕ} (h : i < a) : m.blit a n src i = m i := by
  rw [blit, if_neg (by omega)]

theorem blit_of_le {m src : Bytes} {a n i : ℕ} (h : a + n ≤ i) : m.blit a n src i = m i := by
  rw [blit, if_neg (by omega)]

theorem blit_succ (m : Bytes) (a n : ℕ) (src : Bytes) :
    m.blit a (n + 1) src = blit (Function.update m a (src 0)) (a + 1) n fun i => src (i + 1) := by
  funext i
  unfold blit
  rcases Nat.lt_trichotomy i a with hlt | rfl | hgt
  · rw [if_neg (by omega), if_neg (by omega), Function.update_of_ne (by omega)]
  · rw [if_pos (by omega), if_neg (by omega), Function.update_self, Nat.sub_self]
  · have hi : i - (a + 1) + 1 = i - a := by omega
    dsimp only
    rw [Function.update_of_ne (by omega), hi]
    exact if_congr (by omega) rfl rfl

theorem blit_empty (m : Bytes) (a : ℕ) (src : Bytes) : m.blit a 0 src = m := by
  funext i
  rw [blit, if_neg (by omega)]

theorem load_congr {m m' : Bytes} {a a' n : ℕ} (h : ∀ i < n, m (a + i) = m' (a' + i)) :
    load m a n = load m' a' n := by
  induction n generalizing a a' with
  | zero => rfl
  | succ n ih =>
    have hhead : m a = m' a' := by simpa using h 0 (Nat.succ_pos n)
    have htail : load m (a + 1) n = load m' (a' + 1) n := by
      apply ih
      intro i hi
      simpa only [Nat.add_assoc, Nat.add_comm 1 i] using h (i + 1) (by omega)
    rw [load, load, hhead, htail]

theorem load_inj {m m' : Bytes} {a a' n : ℕ} (h : load m a n = load m' a' n) {i : ℕ} (hi : i < n) :
    m (a + i) = m' (a' + i) := by
  induction n generalizing a a' i with
  | zero => exact absurd hi (Nat.not_lt_zero i)
  | succ n ih =>
    have hb := (m a).toNat_lt
    have hb' := (m' a').toNat_lt
    rw [load, load] at h
    cases i with
    | zero =>
      have hhead : (m a).toNat = (m' a').toNat := by omega
      exact UInt8.toNat_inj.mp hhead
    | succ i =>
      have htail : load m (a + 1) n = load m' (a' + 1) n := by omega
      have hrest := ih htail (Nat.lt_of_succ_lt_succ hi)
      rwa [Nat.add_assoc, Nat.add_assoc, Nat.add_comm 1 i] at hrest

theorem load_lt (m : Bytes) (a n : ℕ) : load m a n < 256 ^ n := by
  induction n generalizing a with
  | zero => simp [load]
  | succ n ih =>
    have hbyte : (m a).toNat < 256 := (m a).toNat_lt
    have htail := ih (a + 1)
    rw [load, pow_succ]
    omega

theorem load_blit_of_apart {m src : Bytes} {a n b k : ℕ} (h : a + n ≤ b ∨ b + k ≤ a) :
    load (m.blit a n src) b k = load m b k := by
  apply load_congr
  intro i hi
  rcases h with h | h
  · exact blit_of_le (by omega)
  · exact blit_of_lt (by omega)

theorem load_blit_of_inside {m src : Bytes} {a n b k : ℕ} (h : b + k ≤ n) :
    load (m.blit a n src) (a + b) k = load src b k := by
  apply load_congr
  intro i hi
  rw [Nat.add_assoc]
  exact blit_of_mem (by omega)

theorem load_digits (v n : ℕ) : load (fun i => UInt8.ofNat (v / 256 ^ i)) 0 n = v % 256 ^ n := by
  induction n generalizing v with
  | zero => simp [load, Nat.mod_one]
  | succ n ih =>
    have htail : load (fun i => UInt8.ofNat (v / 256 ^ i)) (0 + 1) n = v / 256 % 256 ^ n := by
      rw [← ih]
      apply load_congr
      intro i _
      rw [Nat.div_div_eq_div_mul, Nat.zero_add, Nat.zero_add, pow_add, pow_one]
    rw [load, htail, pow_succ, Nat.mul_comm (256 ^ n), Nat.mod_mul]
    simp

@[simp] theorem load_store (m : Bytes) (a n v : ℕ) : load (m.store a n v) a n = v % 256 ^ n := by
  rw [← load_digits]
  exact load_blit_of_inside (b := 0) (by omega)

theorem store_of_outside {m : Bytes} {a n v i : ℕ} (h : i < a ∨ a + n ≤ i) : m.store a n v i = m i :=
  h.elim blit_of_lt blit_of_le

/-- `for (i = 0; i < n; i++) dst[i] = src[i]`. -/
def copy (m : Bytes) (dst src : ℕ) : ℕ → Bytes
  | 0 => m
  | n + 1 => Function.update (m.copy dst src n) (dst + n) (m.copy dst src n (src + n))

theorem copy_of_outside {m : Bytes} {dst src n i : ℕ} (h : i < dst ∨ dst + n ≤ i) :
    m.copy dst src n i = m i := by
  induction n with
  | zero => rfl
  | succ n ih => rw [copy, Function.update_of_ne (by omega), ih (by omega)]

theorem copy_of_mem {m : Bytes} {dst src n i : ℕ} (hap : src + n ≤ dst ∨ dst + n ≤ src) (hi : i < n) :
    m.copy dst src n (dst + i) = m (src + i) := by
  induction n with
  | zero => exact absurd hi (Nat.not_lt_zero i)
  | succ n ih =>
    rw [copy]
    by_cases hin : i = n
    · rw [hin, Function.update_self, copy_of_outside (by omega)]
    · rw [Function.update_of_ne (by omega), ih (by omega) (by omega)]

theorem load_store_of_apart {m : Bytes} {a n b k v : ℕ} (h : a + n ≤ b ∨ b + k ≤ a) :
    load (m.store a n v) b k = load m b k := load_blit_of_apart h

end Bytes

/-- The layout of a record: where each field lies and how many bytes it takes. -/
structure Layout (F : Type*) where
  off : F → ℕ
  len : F → ℕ
  size : ℕ
  fits : ∀ f, off f + len f ≤ size := by
    intro f
    cases f <;> decide
  apart : ∀ f g, f ≠ g → off f + len f ≤ off g ∨ off g + len g ≤ off f := by
    intro f g h
    cases f <;> cases g <;> first | exact absurd rfl h | decide

namespace Layout

variable {F : Type*} (L : Layout F)

/-- The field `f` of the record at address `a`. -/
def get (m : Bytes) (a : ℕ) (f : F) : ℕ := m.load (a + L.off f) (L.len f)

def set (m : Bytes) (a : ℕ) (f : F) (v : ℕ) : Bytes := m.store (a + L.off f) (L.len f) v

variable {L} {m : Bytes} {a b v : ℕ} {f g : F}

theorem get_lt : L.get m a f < 256 ^ L.len f := Bytes.load_lt _ _ _

theorem get_congr {m' : Bytes} (h : ∀ i < L.size, m (a + i) = m' (b + i)) :
    L.get m a f = L.get m' b f := by
  apply Bytes.load_congr
  intro i hi
  have hfit := L.fits f
  simpa only [Nat.add_assoc] using h (L.off f + i) (by omega)

theorem bytes_of_get {m' : Bytes} (h : L.get m' a f = L.get m a f) {i : ℕ} (hlo : L.off f ≤ i)
    (hhi : i < L.off f + L.len f) : m' (a + i) = m (a + i) := by
  obtain ⟨j, rfl⟩ := Nat.exists_eq_add_of_le hlo
  have hbyte := Bytes.load_inj h (i := j) (by omega)
  rwa [Nat.add_assoc] at hbyte

theorem get_set_self : L.get (L.set m a f v) a f = v % 256 ^ L.len f := Bytes.load_store _ _ _ _

theorem set_of_outside {i : ℕ} (h : i < a ∨ a + L.size ≤ i) : L.set m a f v i = m i := by
  apply Bytes.store_of_outside
  have := L.fits f
  omega

theorem set_back {w : ℕ} (h : w % 256 ^ L.len f = L.get m a f) : L.set (L.set m a f v) a f w = m := by
  funext i
  by_cases hi : a + L.off f ≤ i ∧ i < a + L.off f + L.len f
  · obtain ⟨j, rfl⟩ := Nat.exists_eq_add_of_le hi.1
    exact Bytes.load_inj (get_set_self.trans h) (by omega)
  · have hout : i < a + L.off f ∨ a + L.off f + L.len f ≤ i := by omega
    rw [set, Bytes.store_of_outside hout, set, Bytes.store_of_outside hout]

theorem get_set_of_field_ne (h : f ≠ g) : L.get (L.set m a f v) a g = L.get m a g := by
  apply Bytes.load_store_of_apart
  have := L.apart f g h
  omega

theorem get_set_of_apart (h : a + L.size ≤ b ∨ b + L.size ≤ a) :
    L.get (L.set m a f v) b g = L.get m b g := by
  apply Bytes.load_store_of_apart
  have hf := L.fits f
  have hg := L.fits g
  omega

theorem get_set_of_other {F' : Type*} {L' : Layout F'} {f' : F'}
    (h : a + L'.size ≤ b ∨ b + L.size ≤ a) : L.get (L'.set m a f' v) b g = L.get m b g := by
  apply Bytes.load_store_of_apart
  have hf := L'.fits f'
  have hg := L.fits g
  omega

theorem get_shift (m : Bytes) (a : ℕ) (g : F) : L.get (fun k => m (a + k)) 0 g = L.get m a g := by
  apply get_congr
  intro i _
  rw [Nat.zero_add]

theorem get_blit_of_apart {n : ℕ} {src : Bytes} (h : a + n ≤ b ∨ b + L.size ≤ a) :
    L.get (m.blit a n src) b g = L.get m b g := by
  apply Bytes.load_blit_of_apart
  have hg := L.fits g
  omega

end Layout

end GcAos.Lib
