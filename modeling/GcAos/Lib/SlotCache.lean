import Mathlib.Data.List.FinRange
import Mathlib.Tactic

/-! Caches with a fixed number of slots. A new entry goes to the first free slot, or to the first slot of
all when none is free, and a search ends at the first slot with the key. -/

namespace GcAos.Lib

variable {n : ℕ}

/-- `for (i = 0; i < n; i++) if (p(i)) return i;` -/
def firstSlot (p : Fin n → Bool) : Option (Fin n) := (List.finRange n).find? p

theorem firstSlot_eq_some_iff {p : Fin n → Bool} {i : Fin n} :
    firstSlot p = some i ↔ p i = true ∧ ∀ j < i, p j = false := by
  rw [firstSlot, List.find?_eq_some_iff_getElem]
  refine and_congr_right fun _ => ⟨?_, fun hbefore => ?_⟩
  · rintro ⟨a, ha, hi, hbefore⟩ j hj
    rw [List.getElem_finRange] at hi
    have hja : j.val < a := by
      rw [← hi] at hj
      exact hj
    have hnot := hbefore j.val hja
    rw [List.getElem_finRange] at hnot
    simpa using hnot
  · refine ⟨i.val, by simp, by simp, fun j hj => ?_⟩
    rw [List.getElem_finRange]
    have hnot := hbefore ⟨j, hj.trans i.isLt⟩ hj
    simpa using hnot

theorem firstSlot_eq_none_iff {p : Fin n → Bool} : firstSlot p = none ↔ ∀ i, p i = false := by
  rw [firstSlot, List.find?_eq_none]
  simp

/-- A slot is `none` while it is free. -/
abbrev SlotCache (n : ℕ) (K V : Type*) := Fin n → Option (K × V)

namespace SlotCache

variable {K V : Type*} {c : SlotCache n K V} {l : List (K × V)} {k : K} {v : V}

def free (c : SlotCache n K V) : Option (Fin n) := firstSlot fun i => (c i).isNone

def add [NeZero n] (c : SlotCache n K V) (e : K × V) : SlotCache n K V :=
  Function.update c (c.free.getD 0) (some e)

def search [DecidableEq K] (c : SlotCache n K V) (k : K) : Option V :=
  (firstSlot fun i => (c i).any fun e => e.1 = k).bind fun i => (c i).map Prod.snd

def firstValue [DecidableEq K] (l : List (K × V)) (k : K) : Option V :=
  (l.find? fun e => e.1 = k).map Prod.snd

/-- The slots hold the entries in order, and the others are free. -/
def Holds (c : SlotCache n K V) (l : List (K × V)) : Prop := ∀ i, c i = l[i.val]?

theorem Holds.free_eq (h : c.Holds l) (hlt : l.length < n) : c.free = some ⟨l.length, hlt⟩ := by
  refine firstSlot_eq_some_iff.mpr ⟨?_, fun j hj => ?_⟩
  · rw [h]
    simp
  · have hjl : j.val < l.length := hj
    rw [h, List.getElem?_eq_getElem hjl]
    rfl

theorem Holds.add [NeZero n] (h : c.Holds l) (hlt : l.length < n) (e : K × V) :
    (c.add e).Holds (l ++ [e]) := by
  intro i
  rw [SlotCache.add, h.free_eq hlt, Option.getD_some]
  by_cases hi : i = ⟨l.length, hlt⟩
  · rw [hi, Function.update_self]
    simp
  · have hne : i.val ≠ l.length := fun heq => hi (Fin.ext heq)
    rw [Function.update_of_ne hi, h]
    rcases Nat.lt_or_gt_of_ne hne with hlo | hhi
    · rw [List.getElem?_append_left hlo]
    · rw [List.getElem?_eq_none hhi.le, List.getElem?_eq_none]
      simpa using hhi

theorem full_add [NeZero n] (h : ∀ i, (c i).isSome) (e : K × V) :
    c.add e = Function.update c 0 (some e) ∧ ∀ i, (c.add e i).isSome := by
  have hnone : c.free = none := firstSlot_eq_none_iff.mpr fun i => by
    rw [Option.isNone_eq_false_iff]
    exact h i
  have hadd : c.add e = Function.update c 0 (some e) := by
    rw [SlotCache.add, hnone]
    rfl
  refine ⟨hadd, fun i => ?_⟩
  rw [hadd]
  by_cases hi : i = 0
  · rw [hi, Function.update_self]
    rfl
  · rw [Function.update_of_ne hi]
    exact h i

theorem foldl_add [NeZero n] (l : List (K × V)) :
    l.length ≤ n ∧ Holds (l.foldl add (fun _ : Fin n => none)) l ∨
      n ≤ l.length ∧ ∀ i, (l.foldl add (fun _ : Fin n => none) i).isSome := by
  induction l using List.reverseRecOn with
  | nil => exact .inl ⟨Nat.zero_le n, fun _ => rfl⟩
  | append_singleton l e ih =>
    rw [List.foldl_append, List.length_append, List.length_singleton]
    rcases ih with ⟨hle, hholds⟩ | ⟨hle, hfull⟩
    · rcases hle.lt_or_eq with hlt | heq
      · exact .inl ⟨hlt, hholds.add hlt e⟩
      · refine .inr ⟨by omega, (full_add (fun i => ?_) e).2⟩
        rw [hholds i, List.getElem?_eq_getElem (heq ▸ i.isLt)]
        rfl
    · exact .inr ⟨by omega, (full_add hfull e).2⟩

section
variable [DecidableEq K]

theorem Holds.search_eq (h : c.Holds l) (hle : l.length ≤ n) : c.search k = firstValue l k := by
  rw [search, firstValue]
  rcases hfind : l.find? fun e => e.1 = k with _ | e
  · have hnone : (firstSlot fun i => (c i).any fun e => e.1 = k) = none := by
      refine firstSlot_eq_none_iff.mpr fun i => ?_
      rw [h i]
      rcases hi : l[i.val]? with _ | e
      · rfl
      · have hmem := List.mem_of_getElem? hi
        simpa using List.find?_eq_none.mp hfind e hmem
    rw [hnone, hfind]
    rfl
  · obtain ⟨hkey, i, hi, hget, hbefore⟩ := List.find?_eq_some_iff_getElem.mp hfind
    have hsome : (firstSlot fun i => (c i).any fun e => e.1 = k) = some ⟨i, hi.trans_le hle⟩ := by
      refine firstSlot_eq_some_iff.mpr ⟨?_, fun j hj => ?_⟩
      · rw [h, List.getElem?_eq_getElem hi, hget]
        exact hkey
      · have hji : j.val < i := hj
        rw [h, List.getElem?_eq_getElem (hji.trans hi)]
        simpa using hbefore j.val hji
    rw [hsome, Option.bind_some, h, List.getElem?_eq_getElem hi, hget, hfind]

theorem search_add_iff [NeZero n] (l : List (K × V)) (k : K) (v : V) :
    ((l.foldl add (fun _ : Fin n => none)).add (k, v)).search k = some v ↔
      n ≤ l.length ∨ ∀ w, firstValue l k = some w → w = v := by
  have hfull {c : SlotCache n K V} (h : ∀ i, (c i).isSome) : (c.add (k, v)).search k = some v := by
    have hzero : (firstSlot fun i => (c.add (k, v) i).any fun e => e.1 = k) = some 0 := by
      refine firstSlot_eq_some_iff.mpr ⟨?_, fun j hj => absurd hj (Fin.not_lt_zero j)⟩
      rw [(full_add h (k, v)).1, Function.update_self]
      simp
    rw [search, hzero, (full_add h (k, v)).1, Option.bind_some, Function.update_self]
    rfl
  rcases foldl_add (n := n) l with ⟨hle, hholds⟩ | ⟨hle, hslots⟩
  · rcases hle.lt_or_eq with hlt | heq
    · rw [(hholds.add hlt (k, v)).search_eq (by simpa using hlt), or_iff_right (by omega)]
      rw [firstValue, firstValue, List.find?_append, Option.map_or]
      rcases hfind : l.find? fun e => e.1 = k with _ | e
      · simp [hfind]
      · simp [hfind]
    · refine iff_of_true (hfull fun i => ?_) (.inl heq.ge)
      rw [hholds i, List.getElem?_eq_getElem (heq ▸ i.isLt)]
      rfl
  · exact iff_of_true (hfull hslots) (.inl hle)

end

end SlotCache

end GcAos.Lib
