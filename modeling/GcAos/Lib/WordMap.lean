import Mathlib.Data.List.Basic
import Mathlib.Logic.Function.Basic
import Mathlib.Tactic

/-! Bitmaps kept in words of 64 bits. -/

namespace GcAos.Lib

abbrev WordMap : Type := ℕ → BitVec 64

namespace WordMap

def testBit (m : WordMap) (nr : ℕ) : Bool := (m (nr / 64)).getLsbD (nr % 64)

def setBit (m : WordMap) (nr : ℕ) : WordMap :=
  Function.update m (nr / 64) (m (nr / 64) ||| 1#64 <<< (nr % 64))

def clearBit (m : WordMap) (nr : ℕ) : WordMap :=
  Function.update m (nr / 64) (m (nr / 64) &&& ~~~(1#64 <<< (nr % 64)))

def ctz (w : BitVec 64) : ℕ := (List.range 64).findIdx fun i => w.getLsbD i

/-- The lowest bit that is set in the words that hold `size` bits. -/
def findFirst (m : WordMap) (size : ℕ) : Option ℕ :=
  (List.range ((size + 63) / 64)).findSome? fun i => if m i ≠ 0 then some (ctz (m i) + i * 64) else none

variable {m : WordMap} {i j size : ℕ}

theorem getLsbD_one_shiftLeft (h : j / 64 = i / 64) :
    (1#64 <<< (i % 64)).getLsbD (j % 64) = decide (j = i) := by
  have hi : i % 64 < 64 := Nat.mod_lt _ (by decide)
  have hiff : i % 64 = j % 64 ↔ j = i := by omega
  rw [← BitVec.twoPow_eq, BitVec.getLsbD_twoPow, decide_eq_true hi, Bool.true_and]
  simp only [hiff]

theorem testBit_setBit : (m.setBit i).testBit j = (decide (j = i) || m.testBit j) := by
  unfold testBit setBit
  by_cases h : j / 64 = i / 64
  · rw [h, Function.update_self, BitVec.getLsbD_or, getLsbD_one_shiftLeft h, Bool.or_comm]
  · have hne : j ≠ i := fun heq => h (by rw [heq])
    rw [Function.update_of_ne h]
    simp [hne]

theorem testBit_clearBit : (m.clearBit i).testBit j = (!decide (j = i) && m.testBit j) := by
  unfold testBit clearBit
  by_cases h : j / 64 = i / 64
  · have hj : j % 64 < 64 := Nat.mod_lt _ (by decide)
    rw [h, Function.update_self, BitVec.getLsbD_and, BitVec.getLsbD_not, getLsbD_one_shiftLeft h,
      decide_eq_true hj, Bool.true_and, Bool.and_comm]
  · have hne : j ≠ i := fun heq => h (by rw [heq])
    rw [Function.update_of_ne h]
    simp [hne]

theorem getLsbD_ctz {w : BitVec 64} (h : w ≠ 0) : ctz w < 64 ∧ w.getLsbD (ctz w) = true := by
  have hex : ∃ i ∈ List.range 64, w.getLsbD i = true := by
    by_contra hno
    apply h
    apply BitVec.eq_of_getLsbD_eq
    intro i hi
    simpa using fun hset => hno ⟨i, List.mem_range.mpr hi, hset⟩
  have hlt : ctz w < (List.range 64).length := List.findIdx_lt_length.mpr hex
  have hbit : w.getLsbD ((List.range 64).get ⟨ctz w, hlt⟩) = true := List.findIdx_getElem (w := hlt)
  rw [List.get_eq_getElem, List.getElem_range] at hbit
  exact ⟨by simpa using hlt, hbit⟩

theorem getLsbD_of_lt_ctz {w : BitVec 64} (h : i < ctz w) : w.getLsbD i = false := by
  have hclear := List.not_of_lt_findIdx h
  rw [List.getElem_range] at hclear
  simpa using hclear

theorem testBit_of_findFirst (h : m.findFirst size = some i) : m.testBit i = true := by
  obtain ⟨k, -, hk⟩ := List.exists_of_findSome?_eq_some h
  split at hk
  · next hne =>
    obtain rfl := Option.some.inj hk
    obtain ⟨hlt, hbit⟩ := getLsbD_ctz hne
    have hdiv : (ctz (m k) + k * 64) / 64 = k := by omega
    have hmod : (ctz (m k) + k * 64) % 64 = ctz (m k) := by omega
    rw [testBit, hdiv, hmod, hbit]
  · exact absurd hk (by simp)

theorem testBit_of_lt_findFirst (h : m.findFirst size = some i) (hj : j < i) : m.testBit j = false := by
  obtain ⟨before, k, after, hrange, hk, hnone⟩ := List.findSome?_eq_some_iff.mp h
  split at hk
  · next hne =>
    obtain rfl := Option.some.inj hk
    obtain ⟨hlt, -⟩ := getLsbD_ctz hne
    by_cases hjk : j / 64 = k
    · subst hjk
      exact getLsbD_of_lt_ctz (by omega)
    · -- the words before that one are zero
      have hsorted := List.pairwise_lt_range (n := (size + 63) / 64)
      have hmem : k ∈ List.range ((size + 63) / 64) := hrange ▸ List.mem_append_right _ List.mem_cons_self
      have hword : j / 64 ∈ List.range ((size + 63) / 64) := by
        rw [List.mem_range] at hmem ⊢
        omega
      rw [hrange] at hsorted hword
      have hafter : j / 64 ∉ after := fun hin => by
        have := (List.pairwise_cons.mp (List.pairwise_append.mp hsorted).2.1).1 _ hin
        omega
      have hbefore := (List.mem_append.mp hword).resolve_right fun hin =>
        (List.mem_cons.mp hin).elim hjk hafter
      have hzero : m (j / 64) = 0 := by simpa using hnone _ hbefore
      rw [testBit, hzero]
      simp
  · exact absurd hk (by simp)

theorem testBit_of_findFirst_none (h : m.findFirst size = none) (hi : i < size) : m.testBit i = false := by
  have hword := List.findSome?_eq_none_iff.mp h (i / 64) (List.mem_range.mpr (by omega))
  have hzero : m (i / 64) = 0 := by simpa using hword
  rw [testBit, hzero]
  simp

end WordMap

end GcAos.Lib
