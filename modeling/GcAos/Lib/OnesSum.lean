import GcAos.Lib.Bytes

/-! The one's complement sum of 16-bit words. -/

namespace GcAos.Lib

def Bytes.slice (m : Bytes) (a n : ℕ) : List UInt8 := (List.range n).map fun i => m (a + i)

def onesAdd (x y : ℕ) : ℕ := if x + y < 2 ^ 16 then x + y else x + y - (2 ^ 16 - 1)

def onesSumFrom : ℕ → List UInt8 → ℕ
  | acc, hi :: lo :: l => onesSumFrom (onesAdd acc (256 * hi.toNat + lo.toNat)) l
  | acc, [hi] => onesAdd acc (256 * hi.toNat)
  | acc, [] => acc

def onesSum (l : List UInt8) : ℕ := onesSumFrom 0 l

def wordSum : List UInt8 → ℕ
  | lo :: hi :: l => lo.toNat + 256 * hi.toNat + wordSum l
  | [lo] => lo.toNat
  | [] => 0

variable {x y acc a n k v : ℕ} {m m' : Bytes} {l l' : List UInt8}

theorem onesAdd_lt (hx : x < 2 ^ 16) (hy : y < 2 ^ 16) : onesAdd x y < 2 ^ 16 := by
  unfold onesAdd
  split_ifs <;> omega

theorem onesAdd_mod (x y : ℕ) : onesAdd x y % 65535 = (x + y) % 65535 := by
  unfold onesAdd
  split_ifs <;> omega

theorem onesAdd_eq_zero : onesAdd x y = 0 ↔ x = 0 ∧ y = 0 := by
  unfold onesAdd
  split_ifs <;> omega

theorem onesSumFrom_spec (l : List UInt8) (hacc : acc < 2 ^ 16) :
    onesSumFrom acc l < 2 ^ 16 ∧ onesSumFrom acc l % 65535 = (acc + 256 * wordSum l) % 65535 ∧
      (onesSumFrom acc l = 0 ↔ acc = 0 ∧ wordSum l = 0) := by
  induction acc, l using onesSumFrom.induct with
  | case1 acc hi lo l ih =>
    have hhi := hi.toNat_lt
    have hlo := lo.toNat_lt
    have hword : 256 * hi.toNat + lo.toNat < 2 ^ 16 := by omega
    obtain ⟨hlt, hmod, hzero⟩ := ih (onesAdd_lt hacc hword)
    have hadd := onesAdd_mod acc (256 * hi.toNat + lo.toNat)
    rw [onesSumFrom, wordSum]
    refine ⟨hlt, by omega, ?_⟩
    rw [hzero, onesAdd_eq_zero]
    omega
  | case2 acc hi =>
    have hhi := hi.toNat_lt
    have hword : 256 * hi.toNat < 2 ^ 16 := by omega
    have hadd := onesAdd_mod acc (256 * hi.toNat)
    rw [onesSumFrom, wordSum]
    refine ⟨onesAdd_lt hacc hword, by omega, ?_⟩
    rw [onesAdd_eq_zero]
    omega
  | case3 acc =>
    rw [onesSumFrom, wordSum]
    exact ⟨hacc, by omega, by omega⟩

theorem onesSum_eq_iff : onesSum l = 0xFFFF ↔ wordSum l % 65535 = 0 ∧ wordSum l ≠ 0 := by
  obtain ⟨hlt, hmod, hzero⟩ := onesSumFrom_spec l (by decide : 0 < 2 ^ 16)
  unfold onesSum
  omega

example : onesSum [0x00, 0x01, 0xf2, 0x03, 0xf4, 0xf5, 0xf6, 0xf7] = 0xddf2 := by decide

theorem wordSum_append (h : l.length % 2 = 0) : wordSum (l ++ l') = wordSum l + wordSum l' := by
  induction l using wordSum.induct with
  | case1 lo hi l ih =>
    have hlen : l.length % 2 = 0 := by
      rw [List.length_cons, List.length_cons] at h
      omega
    rw [List.cons_append, List.cons_append, wordSum, wordSum, ih hlen, Nat.add_assoc _ (wordSum l)]
  | case2 lo =>
    rw [List.length_singleton] at h
    exact absurd h (by decide)
  | case3 => rw [List.nil_append, wordSum, Nat.zero_add]

theorem wordSum_le (l : List UInt8) : wordSum l ≤ 65535 * ((l.length + 1) / 2) := by
  induction l using wordSum.induct with
  | case1 lo hi l ih =>
    have hhi := hi.toNat_lt
    have hlo := lo.toNat_lt
    rw [wordSum, List.length_cons, List.length_cons]
    omega
  | case2 lo =>
    have hlo := lo.toNat_lt
    rw [wordSum, List.length_singleton]
    omega
  | case3 => exact Nat.zero_le _

namespace Bytes

@[simp] theorem length_slice (m : Bytes) (a n : ℕ) : (m.slice a n).length = n := by
  rw [slice, List.length_map, List.length_range]

theorem slice_succ (m : Bytes) (a n : ℕ) : m.slice a (n + 1) = m a :: m.slice (a + 1) n := by
  rw [slice, List.range_succ_eq_map, List.map_cons, List.map_map, Nat.add_zero, slice]
  refine congrArg _ (List.map_congr_left fun i _ => ?_)
  rw [Function.comp_apply, Nat.succ_eq_add_one, Nat.add_assoc, Nat.add_comm 1 i]

theorem slice_congr (h : ∀ i < n, m (a + i) = m' (a + i)) : m.slice a n = m'.slice a n :=
  List.map_congr_left fun i hi => h i (List.mem_range.mp hi)

theorem wordSum_slice_add_two (m : Bytes) (a n : ℕ) :
    wordSum (m.slice a (n + 2)) = m.load a 2 + wordSum (m.slice (a + 2) n) := by
  rw [slice_succ, slice_succ, wordSum]
  rfl

theorem wordSum_slice_store (h : 2 * k + 2 ≤ n) (hv : v < 2 ^ 16) :
    wordSum ((m.store (a + 2 * k) 2 v).slice a n) + m.load (a + 2 * k) 2 =
      wordSum (m.slice a n) + v := by
  obtain ⟨n, rfl⟩ := Nat.exists_eq_add_of_le' (by omega : 2 ≤ n)
  induction k generalizing a n with
  | zero =>
    have hrest : (m.store a 2 v).slice (a + 2) n = m.slice (a + 2) n :=
      slice_congr fun i _ => store_of_outside (.inr (by omega))
    have hword : v % 256 ^ 2 = v := Nat.mod_eq_of_lt hv
    rw [wordSum_slice_add_two, wordSum_slice_add_two, Nat.mul_zero, Nat.add_zero, load_store, hrest,
      hword]
    omega
  | succ k ih =>
    obtain ⟨n, rfl⟩ := Nat.exists_eq_add_of_le' (by omega : 2 ≤ n)
    have haddr : a + 2 * (k + 1) = a + 2 + 2 * k := by omega
    have hrest := @ih (a + 2) n (by omega)
    rw [haddr, wordSum_slice_add_two, wordSum_slice_add_two m, load_store_of_apart (.inr (by omega))]
    omega

end Bytes

end GcAos.Lib
