import GcAos.Mm.VmmRun

/-! `vmm_map_range` and `vmm_unmap_range` of `kernel/mm/vmm.c`, page by page. -/

namespace GcAos.Mm
open Lib Vmm

section
variable (k : KernelImage)

/-- The loop of `vmm_unmap_range` over the pages that are left. -/
def unmapPages (vaddr offset : ℕ) : ℕ → Vmm → Vmm
  | 0, s => s
  | n + 1, s =>
    unmapPages vaddr (offset + pageSize) n (vmmUnmapPage k s ((vaddr + offset) % 2 ^ 64)).2

def vmmUnmapRange (s : Vmm) (vaddr size : ℕ) : ℤ × Vmm :=
  (0, unmapPages k (alignDown vaddr pageSize) 0 (align size pageSize / pageSize) s)

/-- The loop of `vmm_map_range` over the pages that are left. -/
def mapPages (vaddr paddr flags offset : ℕ) : ℕ → Vmm → ℤ × Vmm
  | 0, s => (0, s)
  | n + 1, s =>
    let (ret, s) := vmmMapPage k s ((vaddr + offset) % 2 ^ 64) ((paddr + offset) % 2 ^ 64) flags
    -- the pages before this one are unmapped again
    if ret < 0 then (ret, (vmmUnmapRange k s vaddr offset).2)
    else mapPages vaddr paddr flags (offset + pageSize) n s

def vmmMapRange (s : Vmm) (vaddr paddr size flags : ℕ) : ℤ × Vmm :=
  mapPages k (alignDown vaddr pageSize) (alignDown paddr pageSize) flags 0
    (align size pageSize / pageSize) s

end

theorem alignDown_alignDown (x a : ℕ) : alignDown (alignDown x a) a = alignDown x a := by
  unfold alignDown
  rw [Nat.and_assoc, Nat.and_self]

theorem align_pageSize_eq (x : ℕ) :
    align x pageSize = (x + pageSize - 1) % 2 ^ 64 / pageSize * pageSize := by
  have hsum : (x + pageSize + 2 ^ 64 - 1) % 2 ^ 64 = (x + pageSize - 1) % 2 ^ 64 := by
    unfold pageSize
    omega
  rw [align, hsum]
  exact and_high_mask (w := 64) (k := 12) (by decide) (Nat.mod_lt _ (by decide))

/-- The page at the offset `i * PAGE_SIZE` of a range. -/
def rangePage (vaddr i : ℕ) : Vpn := vpn ((vaddr + i * pageSize) % 2 ^ 64)

variable {k : KernelImage} {s₀ s s' : Vmm} {vaddr paddr flags size n j : ℕ} {ret : ℤ}

theorem unmapPages_effect (hs : s.Tables k) :
    Kept k s (unmapPages k vaddr (j * pageSize) n s) ∧
      ∀ v, (unmapPages k vaddr (j * pageSize) n s).page k v =
        if ∃ i < n, v = rangePage vaddr (j + i) then none else s.page k v := by
  induction n generalizing s j with
  | zero =>
    refine ⟨.refl hs, fun v => ?_⟩
    rw [if_neg]
    · rfl
    · rintro ⟨i, hi, -⟩
      exact Nat.not_lt_zero i hi
  | succ n ih =>
    rcases hcall : vmmUnmapPage k s ((vaddr + j * pageSize) % 2 ^ 64) with ⟨ret, s₁⟩
    obtain ⟨hkept, hcases⟩ := vmmUnmapPage_effect hs hcall
    have hnext : j * pageSize + pageSize = (j + 1) * pageSize := (Nat.succ_mul _ _).symm
    rw [unmapPages, hcall, hnext]
    obtain ⟨hkept', hpage⟩ := @ih s₁ (j + 1) hkept.tables
    refine ⟨hkept.trans hkept', fun v => ?_⟩
    rw [hpage]
    -- the first page of those that are left is unmapped by now
    have hfirst : s₁.page k v = if v = rangePage vaddr j then none else s.page k v := by
      by_cases hv : v = rangePage vaddr j
      · rw [if_pos hv, hv]
        rcases hcases with ⟨-, -, heq⟩ | ⟨-, hnone, rfl⟩
        · rw [heq]
          exact Function.update_self _ _ _
        · exact hnone
      · rw [if_neg hv]
        rcases hcases with ⟨-, -, heq⟩ | ⟨-, -, rfl⟩
        · rw [heq]
          exact Function.update_of_ne hv _ _
        · rfl
    by_cases hrest : ∃ i < n, v = rangePage vaddr (j + 1 + i)
    · obtain ⟨i, hi, hv⟩ := hrest
      have hsum : j + 1 + i = j + (i + 1) := by omega
      rw [if_pos ⟨i, hi, hv⟩, if_pos ⟨i + 1, by omega, hsum ▸ hv⟩]
    · rw [if_neg hrest, hfirst]
      by_cases hv : v = rangePage vaddr j
      · rw [if_pos hv, if_pos ⟨0, by omega, hv⟩]
      · rw [if_neg hv, if_neg]
        rintro ⟨i, hi, hvi⟩
        cases i with
        | zero => exact hv hvi
        | succ i =>
          have hsum : j + 1 + i = j + (i + 1) := by omega
          exact hrest ⟨i, by omega, hsum ▸ hvi⟩

/-- The first `n` pages of a range have been mapped since `s₀`, where they were unmapped. -/
structure Filled (k : KernelImage) (s₀ s : Vmm) (vaddr paddr n : ℕ) : Prop where
  kept : Kept k s₀ s
  vacant : ∀ i < n, s₀.page k (rangePage vaddr i) = none
  filled : ∀ i < n,
    s.page k (rangePage vaddr i) = some (pteToPhys ((paddr + i * pageSize) % 2 ^ 64))
  other : ∀ v, (∀ i < n, v ≠ rangePage vaddr i) → s.page k v = s₀.page k v

theorem Filled.zero (hs : s.Tables k) : Filled k s s vaddr paddr 0 where
  kept := .refl hs
  vacant := fun i hi => absurd hi (Nat.not_lt_zero i)
  filled := fun i hi => absurd hi (Nat.not_lt_zero i)
  other := fun _ _ => rfl

theorem Filled.succ (h : Filled k s₀ s vaddr paddr n) (hkept : Kept k s s')
    (hnone : s.page k (rangePage vaddr n) = none)
    (hpage : s'.page k = Function.update (s.page k) (rangePage vaddr n)
      (some (pteToPhys ((paddr + n * pageSize) % 2 ^ 64)))) :
    Filled k s₀ s' vaddr paddr (n + 1) := by
  -- a page that the range has come back to would be mapped
  have hne : ∀ i < n, rangePage vaddr i ≠ rangePage vaddr n := by
    intro i hi heq
    rw [← heq, h.filled i hi] at hnone
    exact absurd hnone (by simp)
  refine ⟨h.kept.trans hkept, fun i hi => ?_, fun i hi => ?_, fun v hv => ?_⟩
  · rcases Nat.lt_succ_iff_lt_or_eq.mp hi with hi | rfl
    · exact h.vacant i hi
    · rw [← h.other _ fun j hj => (hne j hj).symm]
      exact hnone
  · rw [hpage]
    rcases Nat.lt_succ_iff_lt_or_eq.mp hi with hi | rfl
    · rw [Function.update_of_ne (hne i hi)]
      exact h.filled i hi
    · exact Function.update_self _ _ _
  · rw [hpage, Function.update_of_ne (hv n (Nat.lt_succ_self n))]
    exact h.other v fun i hi => hv i (Nat.lt_succ_of_lt hi)

theorem Filled.rollback (h : Filled k s₀ s vaddr paddr n) (hv : alignDown vaddr pageSize = vaddr)
    (hn : n * pageSize < 2 ^ 64) :
    Kept k s₀ (vmmUnmapRange k s vaddr (n * pageSize)).2 ∧
      (vmmUnmapRange k s vaddr (n * pageSize)).2.page k = s₀.page k := by
  have hcount : align (n * pageSize) pageSize / pageSize = n := by
    rw [align_pageSize hn (Nat.dvd_mul_left _ _)]
    exact Nat.mul_div_cancel n (by decide)
  have hzero : (0 : ℕ) = 0 * pageSize := (Nat.zero_mul _).symm
  rw [vmmUnmapRange, hv, hcount, hzero]
  obtain ⟨hkept, hpage⟩ := @unmapPages_effect k s vaddr n 0 h.kept.tables
  refine ⟨h.kept.trans hkept, funext fun v => ?_⟩
  rw [hpage]
  split
  · next hmem =>
    obtain ⟨i, hi, rfl⟩ := hmem
    rw [Nat.zero_add]
    exact (h.vacant i hi).symm
  · next hmem =>
    refine h.other v fun i hi hvi => hmem ⟨i, hi, ?_⟩
    rw [Nat.zero_add, hvi]

theorem mapPages_spec (hf : s₀.FreshFrames k) (hv : alignDown vaddr pageSize = vaddr)
    (hn : (j + n) * pageSize < 2 ^ 64) (h : Filled k s₀ s vaddr paddr j)
    (hcall : mapPages k vaddr paddr flags (j * pageSize) n s = (ret, s')) :
    (ret = 0 ∧ Filled k s₀ s' vaddr paddr (j + n)) ∨
      (ret = -1 ∧ Kept k s₀ s' ∧ s'.page k = s₀.page k) := by
  induction n generalizing s j with
  | zero =>
    obtain ⟨rfl, rfl⟩ := Prod.mk.inj hcall
    exact .inl ⟨rfl, h⟩
  | succ n ih =>
    rcases hmap : vmmMapPage k s ((vaddr + j * pageSize) % 2 ^ 64)
      ((paddr + j * pageSize) % 2 ^ 64) flags with ⟨r, s₁⟩
    obtain ⟨hkept, hcases⟩ := vmmMapPage_effect h.kept.tables (h.kept.fresh hf) hmap
    rw [mapPages, hmap] at hcall
    dsimp only at hcall
    rcases hcases with ⟨rfl, hnone, hpage⟩ | ⟨rfl, hpage, -⟩
    · have hnext : j * pageSize + pageSize = (j + 1) * pageSize := (Nat.succ_mul _ _).symm
      have hsum : j + (n + 1) = j + 1 + n := by omega
      rw [if_neg (by decide), hnext] at hcall
      rw [hsum] at hn ⊢
      exact ih hn (h.succ hkept hnone hpage) hcall
    · -- this page fails, and the tables are as they were before it
      rw [if_pos (by decide)] at hcall
      obtain ⟨rfl, rfl⟩ := Prod.mk.inj hcall
      have hsame : Filled k s₀ s₁ vaddr paddr j := by
        refine ⟨h.kept.trans hkept, h.vacant, ?_, ?_⟩
        · rw [hpage]
          exact h.filled
        · rw [hpage]
          exact h.other
      have hj : j * pageSize < 2 ^ 64 := by
        have := Nat.mul_le_mul_right pageSize (Nat.le_add_right j (n + 1))
        omega
      exact .inr ⟨rfl, hsame.rollback hv hj⟩

theorem vmmMapRange_spec (hs : s.Tables k) (hf : s.FreshFrames k)
    (hcall : vmmMapRange k s vaddr paddr size flags = (ret, s')) :
    (ret = 0 ∧ Filled k s s' (alignDown vaddr pageSize) (alignDown paddr pageSize)
        (align size pageSize / pageSize)) ∨
      (ret = -1 ∧ Kept k s s' ∧ s'.page k = s.page k) := by
  have hzero : (0 : ℕ) = 0 * pageSize := (Nat.zero_mul _).symm
  rw [vmmMapRange, hzero] at hcall
  have hn : (0 + align size pageSize / pageSize) * pageSize < 2 ^ 64 := by
    have hlt : (size + pageSize - 1) % 2 ^ 64 < 2 ^ 64 := Nat.mod_lt _ (by decide)
    rw [align_pageSize_eq, Nat.zero_add, Nat.mul_div_cancel _ (by decide)]
    exact (Nat.div_mul_le_self _ _).trans_lt hlt
  have h := mapPages_spec hf (alignDown_alignDown _ _) hn (.zero hs) hcall
  rwa [Nat.zero_add] at h

theorem vmmVirtToPhys_congr (hs : s.Tables k) (hs' : s'.Tables k) {va : ℕ}
    (hpage : s'.page k (vpn va) = s.page k (vpn va)) :
    vmmVirtToPhys k s' va = vmmVirtToPhys k s va := by
  rw [vmmVirtToPhys_eq hs, vmmVirtToPhys_eq hs', hpage]

/-- `vmm_map_range` is all or nothing: when it fails, at whichever page and for whichever reason, the
translation of every address is what it was. -/
theorem vmmMapRange_fails (hs : s.Tables k) (hf : s.FreshFrames k)
    (hcall : vmmMapRange k s vaddr paddr size flags = (ret, s')) (hret : ret ≠ 0) (va : ℕ) :
    vmmVirtToPhys k s' va = vmmVirtToPhys k s va := by
  rcases vmmMapRange_spec hs hf hcall with ⟨h0, -⟩ | ⟨-, hkept, hpage⟩
  · exact absurd h0 hret
  · exact vmmVirtToPhys_congr hs hkept.tables (congrFun hpage _)

theorem vmmMapRange_fails_occupied :
    (vmmMapRange smallImage (vmmMapPage smallImage emptyVmm 0x6000 0x80000000 0).2
        0x5000 0x90000000 0x3000 0).1 = -1 ∧
      ∀ va, vmmVirtToPhys smallImage
          (vmmMapRange smallImage (vmmMapPage smallImage emptyVmm 0x6000 0x80000000 0).2
            0x5000 0x90000000 0x3000 0).2 va =
        vmmVirtToPhys smallImage (vmmMapPage smallImage emptyVmm 0x6000 0x80000000 0).2 va := by
  obtain ⟨hs, hf⟩ := emptyVmm_tables
  have hkept := (vmmMapPage_effect hs hf (Prod.eta
      (vmmMapPage smallImage emptyVmm 0x6000 0x80000000 0)).symm).1
  have hret : (vmmMapRange smallImage (vmmMapPage smallImage emptyVmm 0x6000 0x80000000 0).2
      0x5000 0x90000000 0x3000 0).1 = -1 := by decide +kernel
  refine ⟨hret, fun va => vmmMapRange_fails hkept.tables (hkept.fresh hf) (Prod.eta _).symm ?_ va⟩
  rw [hret]
  decide

/-! ## The pages a range has -/

section Covered
variable (hoff : vaddr % pageSize = paddr % pageSize) (hv : vaddr + size ≤ 2 ^ 48)
  (hp : paddr + size ≤ 2 ^ 48)
include hv

theorem vpn_add (i : ℕ) :
    vpn (vaddr + i) = rangePage (alignDown vaddr pageSize) ((vaddr % pageSize + i) / pageSize) := by
  apply Fin.ext
  rw [alignDown_pageSize (by omega)]
  show (vaddr + i) / 4096 % 2 ^ 36 =
    (vaddr / 4096 * 4096 + (vaddr % 4096 + i) / 4096 * 4096) % 2 ^ 64 / 4096 % 2 ^ 36
  omega

theorem rangePage_ne {i j : ℕ} (hij : i < j) (hj : j * pageSize < vaddr % pageSize + size) :
    rangePage (alignDown vaddr pageSize) j ≠ rangePage (alignDown vaddr pageSize) i := by
  intro heq
  have hval := congrArg Fin.val heq
  rw [alignDown_pageSize (by omega)] at hval
  have hval' : (vaddr / 4096 * 4096 + j * 4096) % 2 ^ 64 / 4096 % 2 ^ 36 =
      (vaddr / 4096 * 4096 + i * 4096) % 2 ^ 64 / 4096 % 2 ^ 36 := hval
  unfold pageSize at hj
  omega

include hoff hp

theorem Filled.translated (h : Filled k s₀ s (alignDown vaddr pageSize) (alignDown paddr pageSize) n)
    {i : ℕ} (hi : i < size) (hn : vaddr % pageSize + i < n * pageSize) :
    vmmVirtToPhys k s (vaddr + i) = paddr + i := by
  have hq : (vaddr % pageSize + i) / pageSize < n := Nat.div_lt_of_lt_mul (by rwa [Nat.mul_comm])
  have hphys : pteToPhys ((alignDown paddr pageSize + (vaddr % pageSize + i) / pageSize * pageSize) %
      2 ^ 64) = paddr / pageSize * pageSize + (vaddr % pageSize + i) / pageSize * pageSize := by
    rw [alignDown_pageSize (by omega), pteToPhys_eq, hoff]
    unfold pageSize
    omega
  rw [vmmVirtToPhys_eq h.kept.tables, vpn_add hv, h.filled _ hq, Option.elim_some, hphys]
  unfold pageSize at *
  omega

end Covered

/-- A range is rounded up by its size, not by where it ends. The last page is left out when the bytes
before the start in its page make the range one page longer; then it translates as intended only if
it had been mapped so before. -/
theorem vmmMapRange_covers_iff (hs : s.Tables k) (hf : s.FreshFrames k)
    (hoff : vaddr % pageSize = paddr % pageSize) (hsize : 0 < size) (hv : vaddr + size ≤ 2 ^ 48)
    (hp : paddr + size ≤ 2 ^ 48) (hcall : vmmMapRange k s vaddr paddr size flags = (0, s')) :
    (∀ i < size, vmmVirtToPhys k s' (vaddr + i) = paddr + i) ↔
      vaddr % pageSize + size ≤ align size pageSize ∨
        vmmVirtToPhys k s (vaddr + (size - 1)) = paddr + (size - 1) := by
  obtain ⟨n, hn⟩ : ∃ n, n = align size pageSize / pageSize := ⟨_, rfl⟩
  have hround : align size pageSize = n * pageSize := by
    rw [hn, align_pageSize_eq, Nat.mul_div_cancel _ (by decide)]
  have hle : size ≤ n * pageSize := by
    rw [← hround, align_pageSize_eq]
    unfold pageSize
    omega
  have hmod : vaddr % pageSize < pageSize := Nat.mod_lt _ (by decide)
  have h : Filled k s s' (alignDown vaddr pageSize) (alignDown paddr pageSize) n := by
    rcases vmmMapRange_spec hs hf hcall with ⟨-, h⟩ | ⟨h, -⟩
    · exact hn ▸ h
    · exact absurd h (by decide)
  rw [hround]
  by_cases hcov : vaddr % pageSize + size ≤ n * pageSize
  · refine iff_of_true (fun i hi => ?_) (.inl hcov)
    exact h.translated hoff hv hp hi (by omega)
  · -- the bytes that are left out are in the page `n` of the range, which is not mapped by the call
    have hlast : ∀ i < size, n * pageSize ≤ vaddr % pageSize + i →
        vpn (vaddr + i) = rangePage (alignDown vaddr pageSize) n := by
      intro i hi hni
      have hq : (vaddr % pageSize + i) / pageSize = n := by
        unfold pageSize at *
        omega
      rw [vpn_add hv, hq]
    have hkeep : s'.page k (rangePage (alignDown vaddr pageSize) n) =
        s.page k (rangePage (alignDown vaddr pageSize) n) :=
      h.other _ fun i hi => rangePage_ne hv hi (by omega)
    have hsame : vmmVirtToPhys k s' (vaddr + (size - 1)) = vmmVirtToPhys k s (vaddr + (size - 1)) := by
      apply vmmVirtToPhys_congr hs h.kept.tables
      rw [hlast (size - 1) (by omega) (by omega), hkeep]
    constructor
    · intro hall
      rw [← hsame]
      exact .inr (hall (size - 1) (by omega))
    · rintro (hcov' | hbefore) i hi
      · exact absurd hcov' hcov
      · by_cases hin : vaddr % pageSize + i < n * pageSize
        · exact h.translated hoff hv hp hi hin
        · rw [← hsame, vmmVirtToPhys_eq h.kept.tables,
            hlast (size - 1) (by omega) (by omega)] at hbefore
          rw [vmmVirtToPhys_eq h.kept.tables, hlast i hi (by omega)]
          cases hpage : s'.page k (rangePage (alignDown vaddr pageSize) n) with
          | none =>
            rw [hpage, Option.elim_none] at hbefore
            unfold pageSize at *
            omega
          | some f =>
            rw [hpage, Option.elim_some] at hbefore
            rw [Option.elim_some]
            unfold pageSize at *
            omega

theorem vmmMapRange_covers_aligned :
    (vmmMapRange smallImage emptyVmm 0x5000 0x80000000 0x2000 0).1 = 0 ∧
      ∀ i < 0x2000, vmmVirtToPhys smallImage
        (vmmMapRange smallImage emptyVmm 0x5000 0x80000000 0x2000 0).2 (0x5000 + i) =
          0x80000000 + i := by
  obtain ⟨hs, hf⟩ := emptyVmm_tables
  have hret : (vmmMapRange smallImage emptyVmm 0x5000 0x80000000 0x2000 0).1 = 0 := by
    decide +kernel
  have hsplit : ∀ x : ℤ × Vmm, x.1 = 0 → x = (0, x.2) := fun x h => Prod.ext h rfl
  exact ⟨hret, (vmmMapRange_covers_iff hs hf (by decide) (by decide) (by decide) (by decide)
    (hsplit _ hret)).mpr (.inl (by decide))⟩

/-- Two bytes on both sides of the end of a page: only the first page is mapped. -/
theorem vmmMapRange_misses_last_page :
    (vmmMapRange smallImage emptyVmm 0x5FFF 0x80000FFF 2 0).1 = 0 ∧
      vmmVirtToPhys smallImage (vmmMapRange smallImage emptyVmm 0x5FFF 0x80000FFF 2 0).2
        (0x5FFF + 1) ≠ 0x80000FFF + 1 := by
  decide +kernel

end GcAos.Mm
