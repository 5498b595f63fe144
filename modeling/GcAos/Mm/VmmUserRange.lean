import GcAos.Mm.VmmIsolation
import GcAos.Mm.VmmRange

/-! `vmm_map_user_range` of `kernel/mm/vmm.c`: a VMA for the range, and a frame for each of its
pages. -/

namespace GcAos.Mm
open Lib

def vmaPoolSize : ℕ := 256

structure Vma where
  start : ℕ
  end_ : ℕ
  flags : ℕ
  deriving DecidableEq

structure RangeVmm where
  user : UserVmm
  -- `vma_index`: how many of the VMAs of the pool are taken
  vmaIndex : ℕ
  -- `vma_list` and `total_vm`, by the number of the `mm_struct`
  vmaList : ℕ → List Vma
  totalVm : ℕ → ℕ
  -- the frames given to `pmm_free_page`, the last one at the end
  freed : List ℕ

namespace RangeVmm

def pmmAllocPage (r : RangeVmm) : ℕ × RangeVmm :=
  let (paddr, s) := r.user.vmm.pmmAllocPage
  (paddr, { r with user := ⟨s, r.user.mmPool⟩ })

def pmmFreePage (r : RangeVmm) (paddr : ℕ) : RangeVmm := { r with freed := r.freed ++ [paddr] }

end RangeVmm

/-- `vmm_add_vma` for the address space with the number `mm`. -/
def vmmAddVma (r : RangeVmm) (mm start end_ flags : ℕ) : ℤ × RangeVmm :=
  if vmaPoolSize ≤ r.vmaIndex then (-1, r)
  else
    (0, { r with
      vmaIndex := r.vmaIndex + 1
      vmaList := Function.update r.vmaList mm (⟨start, end_, flags⟩ :: r.vmaList mm)
      totalVm := Function.update r.totalVm mm ((r.totalVm mm + (2 ^ 64 + end_ - start)) % 2 ^ 64) })

def rangeStart (vaddr : ℕ) : ℕ := alignDown vaddr pageSize

def rangeEnd (vaddr size : ℕ) : ℕ := align (vaddr + size) pageSize

/-- The values of `addr` in the loop over the pages. -/
def rangePages (vaddr size : ℕ) : List ℕ :=
  (List.range ((rangeEnd vaddr size - rangeStart vaddr) / pageSize)).map
    fun i => rangeStart vaddr + i * pageSize

section
variable (k : KernelImage)

def mapUserPages (mm flags : ℕ) : List ℕ → RangeVmm → ℤ × RangeVmm
  | [], r => (0, r)
  | addr :: addrs, r =>
    let (paddr, r) := r.pmmAllocPage
    if paddr = 0 then (-1, r)
    else
      let (ret, u) := vmmMapUserPage k r.user (some mm) addr paddr flags
      let r := { r with user := u }
      if ret ≠ 0 then (ret, r.pmmFreePage paddr) else mapUserPages mm flags addrs r

def vmmMapUserRange (r : RangeVmm) (mm : Option ℕ) (vaddr size flags : ℕ) : ℤ × RangeVmm :=
  match mm with
  | none => (-1, r)
  | some mm =>
    -- what `vmm_add_vma` returns is not looked at
    let (_, r) := vmmAddVma r mm (rangeStart vaddr) (rangeEnd vaddr size) flags
    mapUserPages k mm flags (rangePages vaddr size) r

end

theorem pteToPhys_of_frame {paddr : ℕ} (hal : pageSize ∣ paddr) (hlt : paddr < 2 ^ 48) :
    pteToPhys paddr = paddr := by
  have hal' : 2 ^ 12 ∣ paddr := hal
  rw [pteToPhys_eq, Nat.mod_eq_of_lt hlt, Nat.div_mul_cancel hal']

namespace Vmm

variable {k : KernelImage} {s s' s'' : Vmm} {t t' p p' f : ℕ}

/-- `pmm_alloc_page` returned the frame `f` on the way from `s` to `s'`. -/
def Took (s s' : Vmm) (f : ℕ) : Prop := f ≠ 0 ∧ ∃ l, s.pmm = l ++ s'.pmm ∧ f ∈ l

def earlyLeft (s : Vmm) : ℕ := earlyTablesCount - s.earlyTableIndex

/-- How many frames `pmm_alloc_page` returns until it fails. -/
def available (s : Vmm) : ℕ := (s.pmm.takeWhile (· ≠ 0)).length

/-- The frames for `t` tables and `p` pages. -/
def framesFor (s : Vmm) (t p : ℕ) : ℕ := t - s.earlyLeft + p

/-- `t` tables and `p` pages were allocated. -/
structure Spends (s s' : Vmm) (t p : ℕ) : Prop where
  left : s'.earlyLeft = s.earlyLeft - t
  available : s.available = s.framesFor t p + s'.available
  pmm : s'.pmm = s.pmm.drop (s.framesFor t p)

/-- The frames did not suffice for `t` tables and `p` pages. -/
structure Lacks (s s' : Vmm) (t p : ℕ) : Prop where
  short : s.available < s.framesFor t p
  pmm : s'.pmm = s.pmm.drop (s.available + 1)

theorem Spends.refl (s : Vmm) : Spends s s 0 0 :=
  ⟨rfl, by simp [framesFor], by simp [framesFor]⟩

theorem Spends.framesFor_add (h : Spends s s' t p) (t' p' : ℕ) :
    s.framesFor (t + t') (p + p') = s.framesFor t p + s'.framesFor t' p' := by
  have := h.left
  unfold framesFor
  omega

theorem Spends.trans (h : Spends s s' t p) (h' : Spends s' s'' t' p') :
    Spends s s'' (t + t') (p + p') := by
  refine ⟨?_, ?_, ?_⟩
  · rw [h'.left, h.left, Nat.sub_sub]
  · rw [h.available, h'.available, h.framesFor_add, Nat.add_assoc]
  · rw [h'.pmm, h.pmm, List.drop_drop, h.framesFor_add]

theorem Spends.short (h : Spends s s' t p) (h' : s'.available < s'.framesFor t' p') :
    s.available < s.framesFor (t + t') (p + p') := by
  rw [h.available, h.framesFor_add]
  exact Nat.add_lt_add_left h' _

theorem Spends.lacks (h : Spends s s' t p) (h' : Lacks s' s'' t' p') :
    Lacks s s'' (t + t') (p + p') := by
  refine ⟨h.short h'.short, ?_⟩
  rw [h'.pmm, h.pmm, List.drop_drop, h.available, Nat.add_assoc]

theorem Lacks.mono (h : Lacks s s' t p) (ht : t ≤ t') (hp : p ≤ p') : Lacks s s' t' p' := by
  refine ⟨lt_of_lt_of_le h.short ?_, h.pmm⟩
  unfold framesFor
  omega

theorem Spends.congr (h : Spends s s' t p) (hpmm : s''.pmm = s'.pmm)
    (hidx : s''.earlyTableIndex = s'.earlyTableIndex) : Spends s s'' t p := by
  refine ⟨?_, ?_, hpmm.trans h.pmm⟩
  · rw [earlyLeft, hidx]
    exact h.left
  · rw [h.available, Vmm.available, Vmm.available, hpmm]

theorem pmmAllocPage_spends :
    (s.pmmAllocPage.1 ≠ 0 ∧ Spends s s.pmmAllocPage.2 0 1) ∨
      (s.pmmAllocPage.1 = 0 ∧ Lacks s s.pmmAllocPage.2 0 1) := by
  have hone : s.framesFor 0 1 = 1 := by simp [framesFor]
  cases hpmm : s.pmm with
  | nil =>
    refine .inr ⟨by simp [pmmAllocPage, hpmm], ?_, by simp [pmmAllocPage, hpmm]⟩
    rw [hone]
    simp [available, hpmm]
  | cons f fs =>
    by_cases hf : f = 0
    · refine .inr ⟨by simp [pmmAllocPage, hpmm, hf], ?_, by simp [pmmAllocPage, available, hpmm, hf]⟩
      rw [hone]
      simp [available, hpmm, hf]
    · refine .inl ⟨by simp [pmmAllocPage, hpmm, hf], rfl, ?_, ?_⟩
      · rw [hone]
        simp [pmmAllocPage, available, hpmm, hf, Nat.add_comm]
      · rw [hone]
        simp [pmmAllocPage, hpmm]

theorem available_eq_zero (h : s.pmmAllocPage.1 = 0) : s.available = 0 := by
  rcases pmmAllocPage_spends (s := s) with ⟨hne, -⟩ | ⟨-, hlacks⟩
  · exact absurd h hne
  · have hshort := hlacks.short
    unfold framesFor at hshort
    omega

theorem allocPageTable_spends :
    ((allocPageTable k s).1 ≠ 0 ∧ Spends s (allocPageTable k s).2 1 0) ∨
      ((allocPageTable k s).1 = 0 ∧ Lacks s (allocPageTable k s).2 1 0) := by
  by_cases hi : s.earlyTableIndex < earlyTablesCount
  · -- a table of the static pool costs no frame
    have hfree : s.framesFor 1 0 = 0 := by
      unfold framesFor earlyLeft
      omega
    have hpos := k.early_pos
    have hpmm : (allocPageTable k s).2.pmm = s.pmm := by simp [allocPageTable, hi]
    have hidx : (allocPageTable k s).2.earlyTableIndex = s.earlyTableIndex + 1 := by
      simp [allocPageTable, hi]
    refine .inl ⟨?_, ?_, ?_, ?_⟩
    · simp only [allocPageTable, hi, if_true, earlyTable]
      omega
    · rw [earlyLeft, hidx]
      exact Nat.sub_succ _ _
    · rw [hfree, Nat.zero_add, available, available, hpmm]
    · rw [hfree, hpmm]
      rfl
  · have hleft : s.earlyLeft = 0 := by
      unfold earlyLeft
      omega
    have hframes : s.framesFor 1 0 = s.framesFor 0 1 := by simp [framesFor, hleft]
    have hpmm : (allocPageTable k s).2.pmm = s.pmmAllocPage.2.pmm := by
      simp only [allocPageTable, hi, if_false]
      split <;> rfl
    have hidx : (allocPageTable k s).2.earlyTableIndex = s.earlyTableIndex := by
      simp only [allocPageTable, hi, if_false]
      split <;> rfl
    have hfst : (allocPageTable k s).1 = s.pmmAllocPage.1 := by
      simp only [allocPageTable, hi, if_false]
      split
      · next h => exact h.symm
      · rfl
    rw [hfst]
    rcases pmmAllocPage_spends (s := s) with ⟨hpaddr, h⟩ | ⟨hpaddr, h⟩
    · refine .inl ⟨hpaddr, ?_, ?_, ?_⟩
      · rw [earlyLeft, hidx]
        show s.earlyLeft = s.earlyLeft - 1
        rw [hleft]
      · rw [hframes, h.available, available, available, hpmm]
      · rw [hframes, hpmm, h.pmm]
    · exact .inr ⟨hpaddr, hframes ▸ h.short, hpmm.trans h.pmm⟩

theorem Spends.suffix (h : Spends s s' t p) : s'.pmm <:+ s.pmm := by
  rw [h.pmm]
  exact List.drop_suffix _ _

theorem Took.before (hsuffix : s'.pmm <:+ s.pmm) (h : Took s' s'' f) : Took s s'' f := by
  obtain ⟨hf, l, hl, hmem⟩ := h
  obtain ⟨m, hm⟩ := hsuffix
  refine ⟨hf, m ++ l, ?_, List.mem_append_right m hmem⟩
  rw [← hm, hl, List.append_assoc]

theorem Took.after (h : Took s s' f) (hsuffix : s''.pmm <:+ s'.pmm) : Took s s'' f := by
  obtain ⟨hf, l, hl, hmem⟩ := h
  obtain ⟨m, hm⟩ := hsuffix
  refine ⟨hf, l ++ m, ?_, List.mem_append_left m hmem⟩
  rw [hl, ← hm, List.append_assoc]

theorem Took.mem (h : Took s s' f) : f ∈ s.pmm := by
  obtain ⟨-, l, hl, hmem⟩ := h
  rw [hl]
  exact List.mem_append_left _ hmem

theorem pmmAllocPage_pmm (hpaddr : s.pmmAllocPage.1 ≠ 0) :
    s.pmm = s.pmmAllocPage.1 :: s.pmmAllocPage.2.pmm := by
  unfold pmmAllocPage at *
  cases hpmm : s.pmm with
  | nil =>
    rw [hpmm] at hpaddr
    exact absurd rfl hpaddr
  | cons f fs => rfl

theorem pmmAllocPage_took (hpaddr : s.pmmAllocPage.1 ≠ 0) :
    Took s s.pmmAllocPage.2 s.pmmAllocPage.1 :=
  ⟨hpaddr, [s.pmmAllocPage.1], pmmAllocPage_pmm hpaddr, List.mem_singleton_self _⟩

theorem Took.eq_pmmAllocPage (h : Took s s.pmmAllocPage.2 f) : f = s.pmmAllocPage.1 := by
  obtain ⟨-, l, hl, hmem⟩ := h
  unfold pmmAllocPage at *
  dsimp only at hl ⊢
  cases hpmm : s.pmm with
  | nil =>
    rw [hpmm] at hl
    obtain rfl := (List.append_eq_nil_iff.mp hl.symm).1
    exact absurd hmem List.not_mem_nil
  | cons x xs =>
    rw [hpmm] at hl
    have hone : [x] ++ xs = l ++ xs := hl
    rw [← List.append_cancel_right hone] at hmem
    exact List.mem_singleton.mp hmem

theorem Took.split (h : Took s s'' f) (hsuffix : s'.pmm <:+ s.pmm) (hsuffix' : s''.pmm <:+ s'.pmm) :
    Took s s' f ∨ Took s' s'' f := by
  obtain ⟨hf, l, hl, hmem⟩ := h
  obtain ⟨m, hm⟩ := hsuffix
  obtain ⟨n, hn⟩ := hsuffix'
  have hlmn : l = m ++ n := by
    rw [← hm, ← hn, ← List.append_assoc] at hl
    exact (List.append_cancel_right hl).symm
  rw [hlmn, List.mem_append] at hmem
  exact hmem.imp (fun hfm => ⟨hf, m, hm.symm, hfm⟩) fun hfn => ⟨hf, n, hn.symm, hfn⟩

theorem Supply.ne_pmmAllocPage (hs : s.Supply k) (hpaddr : s.pmmAllocPage.1 ≠ 0)
    (hf : f ∈ s.pmmAllocPage.2.pmm) : s.pmmAllocPage.1 ≠ f := by
  have hdist := hs.distinct
  rw [pmmAllocPage_pmm hpaddr, List.pairwise_cons] at hdist
  exact (hdist.1 f hf).resolve_left hpaddr

end Vmm

namespace UserVmm

variable {k : KernelImage} {u : UserVmm} {s₁ : Vmm} {t g vaddr : ℕ} {i a : Fin vmmEntries}
  {pre : List (Fin vmmEntries)}

def missingTables (u : UserVmm) (steps : Finset (List (Fin vmmEntries))) :
    Finset (List (Fin vmmEntries)) := missing u.own none steps

/-- The paths to the tables of one page of the address space `a`. -/
def pageSteps (a : Fin vmmEntries) (vaddr : ℕ) : Finset (List (Fin vmmEntries)) :=
  pathSteps [a] (vpn vaddr).path

def rangeSteps (a : Fin vmmEntries) (addrs : List ℕ) : Finset (List (Fin vmmEntries)) :=
  addrs.toFinset.biUnion (pageSteps a)

theorem nextTable_spends (h : u.Isolated k) (hpre : u.ownTable pre = some (some t))
    (hlen : pre.length ≤ 3) (hlow : ¬(t ∈ u.mmPool ∧ vmmEntries / 2 ≤ i.val)) :
    (∃ m, u.ownTable (pre ++ [i]) = some (some m) ∧ nextTable k u.vmm t i = (some m, u.vmm)) ∨
      (∃ m n s', Graft u.own (own ⟨s', u.mmPool⟩) none 4 pre (some t) i n ∧
        nextTable k u.vmm t i = (some m, s') ∧ Vmm.Spends u.vmm s' 1 0) ∨
      (∃ s', u.ownTable (pre ++ [i]) = none ∧ nextTable k u.vmm t i = (none, s') ∧
        Vmm.Lacks u.vmm s' 1 0) := by
  have hnext := h.ownTable_next hlen hpre hlow
  unfold nextTable
  cases hval : pteIsValid (u.vmm.pte t i) with
  | true =>
    rw [hval, if_pos rfl] at hnext
    exact .inl ⟨_, hnext, rfl⟩
  | false =>
    rw [hval] at hnext
    simp only [Bool.not_false, if_true]
    rcases Vmm.allocPageTable_spends (k := k) (s := u.vmm) with ⟨hn, hspends⟩ | ⟨hn, hlacks⟩
    · have htake := Vmm.allocPageTable_takes h.supply hn
      rw [if_neg hn]
      exact .inr (.inl ⟨_, _, _, install_own h htake hpre hlen hlow hval, rfl,
        hspends.congr rfl rfl⟩)
    · rw [if_pos hn]
      exact .inr (.inr ⟨_, hnext, rfl, hlacks⟩)

theorem userTable_spends (h : u.Isolated k) (vaddr : ℕ) (levels : List (Fin 4))
    (hpre : u.ownTable pre = some (some t)) (hpos : 1 ≤ pre.length)
    (hlen : pre.length + levels.length ≤ 4)
    (hlow : pre.length = 1 → ∀ level ∈ levels.head?, (pteIndex vaddr level).val < vmmEntries / 2) :
    let steps := pathSteps pre (levels.map (pteIndex vaddr))
    (∃ m s', userTable k vaddr levels t u.vmm = (some m, s') ∧
        Vmm.Spends u.vmm s' (u.missingTables steps).card 0 ∧ ∀ q, q.length ≤ 4 →
          (ownTable ⟨s', u.mmPool⟩ q = none ↔ u.ownTable q = none ∧ q ∉ steps)) ∨
      (∃ s', userTable k vaddr levels t u.vmm = (none, s') ∧
        Vmm.Lacks u.vmm s' (u.missingTables steps).card 0) := by
  induction levels generalizing pre t u with
  | nil =>
    refine .inl ⟨t, u.vmm, rfl, ?_, fun q _ => ?_⟩
    · exact Vmm.Spends.refl u.vmm
    · simp [pathSteps]
  | cons level levels ih =>
    rw [List.length_cons] at hlen
    obtain ⟨i, hi⟩ : ∃ i, i = pteIndex vaddr level := ⟨_, rfl⟩
    have hlow' : ¬(t ∈ u.mmPool ∧ vmmEntries / 2 ≤ i.val) := by
      rintro ⟨hmem, hge⟩
      have := hlow (h.length_of_mem_pool (by omega) hpre hmem) level (by simp)
      rw [hi] at hge
      omega
    have hlen' : (pre ++ [i]).length = pre.length + 1 := by simp
    have hmap : ((level :: levels).map (pteIndex vaddr)).length = levels.length + 1 := by simp
    obtain ⟨hext, hreach⟩ := nextTable_extends h hpre (by omega) hlow'
    intro steps
    unfold userTable
    rw [← hi]
    rcases nextTable_spends h hpre (by omega) hlow' with
      ⟨m, hm, hnext⟩ | ⟨m, n, s', hg, hnext, hspends⟩ | ⟨s', hnone, hnext, hlacks⟩
    · -- the table is there
      rw [hnext]
      dsimp only
      have hsteps : u.missingTables steps =
          u.missingTables (pathSteps (pre ++ [i]) (levels.map (pteIndex vaddr))) := by
        unfold steps missingTables
        rw [List.map_cons, ← hi]
        exact missing_pathSteps_some hm
      rw [hsteps]
      rcases ih h hm (by omega) (by omega) (by omega) with ⟨m', s', hrest, hspends, hafter⟩ | hlacks
      · refine .inl ⟨m', s', hrest, hspends, fun q hq => ?_⟩
        rw [hafter q hq]
        refine and_congr_right fun hnone => not_congr ?_
        unfold steps
        rw [List.map_cons, pathSteps, ← hi, Finset.mem_insert, or_iff_right]
        rintro rfl
        rw [hm] at hnone
        exact absurd hnone (by simp)
      · exact .inr hlacks
    · -- it is added
      rw [hnext] at hext hreach ⊢
      dsimp only at hext hreach ⊢
      have hm := hreach m rfl
      have hcard : (u.missingTables steps).card =
          1 + (missingTables ⟨s', u.mmPool⟩
            (pathSteps (pre ++ [i]) (levels.map (pteIndex vaddr)))).card := by
        unfold steps missingTables
        rw [List.map_cons, ← hi]
        refine hg.card_missing h.sep ?_
        rw [List.length_cons, List.length_map]
        omega
      rw [hcard]
      rcases ih hext.isolated hm (by omega) (by omega) (by omega) with
        ⟨m', s'', hrest, hspends', hafter⟩ | ⟨s'', hrest, hlacks⟩
      · refine .inl ⟨m', s'', hrest, hspends.trans hspends', fun q hq => ?_⟩
        rw [hafter q hq, ownTable, hg.eq_none_iff h.sep hq, and_assoc]
        unfold steps ownTable
        rw [List.map_cons, pathSteps, ← hi, Finset.mem_insert, not_or]
      · exact .inr ⟨s'', hrest, hspends.lacks hlacks⟩
    · rw [hnext]
      refine .inr ⟨s', rfl, hlacks.mono ?_ le_rfl⟩
      unfold steps missingTables
      rw [List.map_cons, ← hi]
      exact missing_pathSteps_pos hnone

theorem rangeSteps_cons (a : Fin vmmEntries) (w : ℕ) (addrs : List ℕ) :
    rangeSteps a (w :: addrs) = pageSteps a w ∪ rangeSteps a addrs := by
  rw [rangeSteps, List.toFinset_cons, Finset.biUnion_insert]
  rfl

theorem length_of_mem_pageSteps {q : List (Fin vmmEntries)} (hq : q ∈ pageSteps a vaddr) :
    q.length ≤ 4 := (length_of_mem_pathSteps hq).2

theorem length_of_mem_rangeSteps {q : List (Fin vmmEntries)} {addrs : List ℕ}
    (hq : q ∈ rangeSteps a addrs) : q.length ≤ 4 := by
  obtain ⟨w, -, hw⟩ := Finset.mem_biUnion.mp hq
  exact length_of_mem_pageSteps hw

structure PageAdded (k : KernelImage) (u : UserVmm) (s' : Vmm) (a : Fin vmmEntries) (vaddr paddr : ℕ) :
    Prop where
  isolated : Isolated k ⟨s', u.mmPool⟩
  spends : Vmm.Spends u.vmm s' (u.missingTables (pageSteps a vaddr)).card 0
  tables : ∀ q, q.length ≤ 4 →
    (ownTable ⟨s', u.mmPool⟩ q = none ↔ u.ownTable q = none ∧ q ∉ pageSteps a vaddr)
  userPage : ∀ v, userPage ⟨s', u.mmPool⟩ a v =
    if v = vpn vaddr then some (pteToPhys paddr) else u.userPage a v

theorem vmmMapUserPage_spends (h : u.Isolated k) (ha : u.mmPool[a.val]? = some g) (hg : g ≠ 0)
    (hv : vaddr < userVmaEnd) (paddr flags : ℕ) :
    (∃ s', vmmMapUserPage k u (some a.val) vaddr paddr flags = (0, ⟨s', u.mmPool⟩) ∧
        PageAdded k u s' a vaddr paddr) ∨
      (∃ s', vmmMapUserPage k u (some a.val) vaddr paddr flags = (-1, ⟨s', u.mmPool⟩) ∧
        Extends k u s' ∧ Vmm.Lacks u.vmm s' (u.missingTables (pageSteps a vaddr)).card 0) := by
  obtain ⟨_, hroot⟩ := h.root_of_getElem ha hg
  have hlow : [a].length = 1 → ∀ level ∈ [(0 : Fin 4), 1, 2].head?,
      (pteIndex vaddr level).val < vmmEntries / 2 := by
    intro _ level hlevel
    obtain rfl : level = 0 := by simpa using hlevel.symm
    exact pteIndex_lt_of_user hv
  have hsteps : pathSteps [a] ([(0 : Fin 4), 1, 2].map (pteIndex vaddr)) = pageSteps a vaddr := by
    simp only [List.map_cons, List.map_nil, pteIndex_eq]
    rfl
  have hpath : [a] ++ [(0 : Fin 4), 1, 2].map (pteIndex vaddr) = a :: (vpn vaddr).path := by
    simp only [List.map_cons, List.map_nil, pteIndex_eq]
    rfl
  have hcall : vmmMapUserPage k u (some a.val) vaddr paddr flags =
      ((mapUserPage k u.vmm g vaddr paddr flags).1,
        ⟨(mapUserPage k u.vmm g vaddr paddr flags).2, u.mmPool⟩) := by
    simp only [vmmMapUserPage, Option.bind_some, ha, if_neg hg, if_neg (Nat.not_le.mpr hv)]
  obtain ⟨hext, htable⟩ := userTable_extends h vaddr [0, 1, 2] hroot (le_refl 1) (le_refl 4) hlow
  have hspends := userTable_spends h vaddr [0, 1, 2] hroot (le_refl 1) (le_refl 4) hlow
  obtain ⟨hisolated, -, hpage⟩ := mapUserPage_spec h hroot hv paddr flags
  rw [hpath] at htable
  rw [hsteps] at hspends
  rw [hcall]
  rcases hspends with ⟨m, s', hwalk, hspends, hafter⟩ | ⟨s', hwalk, hlacks⟩
  · rw [hwalk] at hext htable
    have hm := htable m rfl
    have hmap : mapUserPage k u.vmm g vaddr paddr flags =
        (0, s'.setPte m ((vpn vaddr).index 3) (physToPte paddr (userPteFlags flags))) := by
      rw [mapUserPage, hwalk, pteIndex_eq]
    rw [hmap] at hisolated hpage ⊢
    refine .inl ⟨_, rfl, hisolated, hspends.congr rfl rfl, fun q hq => ?_, fun v => ?_⟩
    · rw [← hafter q hq, setLeaf_ownTable hext.isolated hm hq]
    · rw [hpage]
      simp
  · have hmap : mapUserPage k u.vmm g vaddr paddr flags = (-1, s') := by rw [mapUserPage, hwalk]
    rw [hwalk] at hext
    rw [hmap]
    exact .inr ⟨s', rfl, hext, hlacks⟩

theorem Isolated.alloc (h : u.Isolated k) : Isolated k ⟨u.vmm.pmmAllocPage.2, u.mmPool⟩ := by
  have hsub {f : ℕ} (hf : f ∈ u.vmm.pmm.tail) : f ∈ u.vmm.pmm := List.mem_of_mem_tail hf
  have hsup : u.vmm.pmmAllocPage.2.Supply k :=
    ⟨fun f hf => h.supply.aligned f (hsub hf), fun f hf => h.supply.lt f (hsub hf),
      fun f hf => h.supply.not_early f (hsub hf), h.supply.distinct.sublist (List.tail_sublist _)⟩
  have hmem : u.vmm.pmmAllocPage.2.mem = u.vmm.mem := rfl
  refine (Extends.of_mem h hmem hsup ?_).isolated
  rintro m ⟨hm, hmem | hearly⟩
  · exact ⟨hm, .inl (hsub hmem)⟩
  · exact ⟨hm, .inr hearly⟩

structure PagesMapped (k : KernelImage) (u u' : UserVmm) (a : Fin vmmEntries) (addrs : List ℕ) :
    Prop where
  isolated : u'.Isolated k
  pool : u'.mmPool = u.mmPool
  frames : ∃ frame : ℕ → ℕ, Set.InjOn frame {w | w ∈ addrs} ∧ ∀ w ∈ addrs,
    Vmm.Took u.vmm u'.vmm (frame w) ∧ u'.userPage a (vpn w) = some (frame w)
  other : ∀ v, (∀ w ∈ addrs, v ≠ vpn w) → u'.userPage a v = u.userPage a v

theorem PagesMapped.cons {u' : UserVmm} {s' : Vmm} {w : ℕ} {addrs : List ℕ}
    (hrest : PagesMapped k ⟨s', u.mmPool⟩ u' a addrs) (h : u.Isolated k)
    (hpaddr : u.vmm.pmmAllocPage.1 ≠ 0)
    (hadded : PageAdded k ⟨u.vmm.pmmAllocPage.2, u.mmPool⟩ s' a w u.vmm.pmmAllocPage.1)
    (hne : ∀ v ∈ addrs, vpn w ≠ vpn v) (hsuffix : u'.vmm.pmm <:+ s'.pmm) :
    PagesMapped k u u' a (w :: addrs) := by
  have htook := Vmm.pmmAllocPage_took hpaddr
  have hframe : pteToPhys u.vmm.pmmAllocPage.1 = u.vmm.pmmAllocPage.1 :=
    pteToPhys_of_frame (h.supply.aligned _ htook.mem) (h.supply.lt _ htook.mem)
  have hpage := hadded.userPage
  rw [hframe] at hpage
  obtain ⟨frame, hinj, hframes⟩ := hrest.frames
  have hfirst : u'.userPage a (vpn w) = some u.vmm.pmmAllocPage.1 := by
    rw [hrest.other _ hne, hpage, if_pos rfl]
  have hnew {v : ℕ} (hv : v ∈ addrs) : u.vmm.pmmAllocPage.1 ≠ frame v := by
    refine h.supply.ne_pmmAllocPage hpaddr ?_
    exact ((hframes v hv).1.before hadded.spends.suffix).mem
  have hwv {v : ℕ} (hv : v ∈ addrs) : v ≠ w := fun heq => hne v hv (congrArg vpn heq.symm)
  refine ⟨hrest.isolated, hrest.pool, ⟨Function.update frame w u.vmm.pmmAllocPage.1, ?_, ?_⟩, ?_⟩
  · intro v hv v' hv' heq
    rcases List.mem_cons.mp hv with hvw | hva
    · rcases List.mem_cons.mp hv' with hvw' | hva'
      · rw [hvw, hvw']
      · rw [hvw, Function.update_self, Function.update_of_ne (hwv hva')] at heq
        exact absurd heq (hnew hva')
    · rcases List.mem_cons.mp hv' with hvw' | hva'
      · rw [hvw', Function.update_self, Function.update_of_ne (hwv hva)] at heq
        exact absurd heq.symm (hnew hva)
      · rw [Function.update_of_ne (hwv hva), Function.update_of_ne (hwv hva')] at heq
        exact hinj hva hva' heq
  · intro v hv
    rcases List.mem_cons.mp hv with rfl | hv
    · rw [Function.update_self]
      exact ⟨htook.after (hsuffix.trans hadded.spends.suffix), hfirst⟩
    · rw [Function.update_of_ne (hwv hv)]
      have hsuffix' : s'.pmm <:+ u.vmm.pmm :=
        hadded.spends.suffix.trans (List.tail_suffix u.vmm.pmm)
      exact ⟨(hframes v hv).1.before hsuffix', (hframes v hv).2⟩
  · intro v hv
    rw [hrest.other v fun v' hv' => hv v' (List.mem_cons_of_mem _ hv'), hpage,
      if_neg (hv w List.mem_cons_self)]
    rfl

theorem mapUserPages_spends {r : RangeVmm} {addrs : List ℕ} (h : r.user.Isolated k)
    (ha : r.user.mmPool[a.val]? = some g) (hg : g ≠ 0) (haddrs : ∀ w ∈ addrs, w < userVmaEnd)
    (hpages : addrs.Pairwise fun v w => vpn v ≠ vpn w) (flags : ℕ) :
    let t := (r.user.missingTables (rangeSteps a addrs)).card
    (∃ u', mapUserPages k a.val flags addrs r = (0, { r with user := u' }) ∧
        Vmm.Spends r.user.vmm u'.vmm t addrs.length ∧ PagesMapped k r.user u' a addrs) ∨
      ((mapUserPages k a.val flags addrs r).1 = -1 ∧
        r.user.vmm.available < r.user.vmm.framesFor t addrs.length) := by
  induction addrs generalizing r with
  | nil =>
    refine .inl ⟨r.user, rfl, Vmm.Spends.refl _, h, rfl, ⟨id, by simp, by simp⟩, fun _ _ => rfl⟩
  | cons w addrs ih =>
    rw [List.pairwise_cons] at hpages
    have hw := haddrs w List.mem_cons_self
    intro t
    have hlen : (w :: addrs).length = 0 + 1 + addrs.length := by
      rw [List.length_cons]
      omega
    unfold mapUserPages RangeVmm.pmmAllocPage
    dsimp only
    rcases Vmm.pmmAllocPage_spends (s := r.user.vmm) with ⟨hpaddr, hspends⟩ | ⟨hpaddr, hlacks⟩
    · rw [if_neg hpaddr]
      have h₁ : Isolated k ⟨r.user.vmm.pmmAllocPage.2, r.user.mmPool⟩ := h.alloc
      rcases vmmMapUserPage_spends h₁ ha hg hw r.user.vmm.pmmAllocPage.1 flags with
        ⟨s', hcall, hadded⟩ | ⟨s', hcall, -, hlacks⟩
      · rw [hcall]
        have hcard : t = (r.user.missingTables (pageSteps a w)).card +
            (missingTables ⟨s', r.user.mmPool⟩ (rangeSteps a addrs)).card := by
          unfold t missingTables
          rw [rangeSteps_cons]
          exact card_missing_union fun q hq => hadded.tables q (length_of_mem_rangeSteps hq)
        have hspent := hspends.trans hadded.spends
        have hih := ih (r := { r with user := ⟨s', r.user.mmPool⟩ }) hadded.isolated ha
          (fun v hv => haddrs v (List.mem_cons_of_mem _ hv)) hpages.2
        rw [hlen, hcard, ← Nat.zero_add (Finset.card _ + Finset.card _), ← Nat.add_assoc 0]
        rcases hih with ⟨u', hrest, hspends', hmapped⟩ | ⟨hrest, hshort⟩
        · exact .inl ⟨u', hrest, hspent.trans hspends', hmapped.cons h hpaddr hadded hpages.1
            hspends'.suffix⟩
        · exact .inr ⟨hrest, hspent.short hshort⟩
      · rw [hcall]
        refine .inr ⟨rfl, ((hspends.lacks hlacks).mono ?_ ?_).short⟩
        · rw [Nat.zero_add]
          unfold t missingTables
          rw [rangeSteps_cons]
          exact Finset.card_le_card (Finset.filter_subset_filter _ Finset.subset_union_left)
        · omega
    · rw [if_pos hpaddr]
      refine .inr ⟨rfl, (hlacks.mono (Nat.zero_le t) ?_).short⟩
      omega

theorem vmmMapUserPage_ret (u : UserVmm) (mm : Option ℕ) (vaddr paddr flags : ℕ) :
    let x := vmmMapUserPage k u mm vaddr paddr flags
    (x.1 = 0 ∨ x.1 = -1) ∧ x.2.mmPool = u.mmPool := by
  rcases vmmMapUserPage_cases (k := k) u mm vaddr paddr flags with heq | ⟨a, g, -, -, -, -, heq⟩
  · rw [heq]
    exact ⟨.inr rfl, rfl⟩
  · rw [heq]
    refine ⟨?_, rfl⟩
    dsimp only
    unfold mapUserPage
    split
    · exact .inr rfl
    · exact .inl rfl

theorem mapUserPages_same (mm flags : ℕ) (addrs : List ℕ) (r : RangeVmm) :
    let x := mapUserPages k mm flags addrs r
    (x.1 = 0 ∨ x.1 = -1) ∧ x.2.vmaList = r.vmaList ∧ x.2.totalVm = r.totalVm ∧
      x.2.user.mmPool = r.user.mmPool := by
  induction addrs generalizing r with
  | nil => exact ⟨.inl rfl, rfl, rfl, rfl⟩
  | cons addr addrs ih =>
    unfold mapUserPages
    dsimp only
    split
    · exact ⟨.inr rfl, rfl, rfl, rfl⟩
    · obtain ⟨hret, hpool⟩ := vmmMapUserPage_ret (k := k) r.pmmAllocPage.2.user (some mm) addr
        r.pmmAllocPage.1 flags
      split
      · next hne => exact ⟨.inr (hret.resolve_left hne), rfl, rfl, hpool⟩
      · obtain ⟨hret', hlist, htotal, hpool'⟩ := ih { r.pmmAllocPage.2 with
          user := (vmmMapUserPage k r.pmmAllocPage.2.user (some mm) addr r.pmmAllocPage.1 flags).2 }
        exact ⟨hret', hlist, htotal, hpool'.trans hpool⟩

theorem mapUserPages_zero {mm flags : ℕ} {addrs : List ℕ} {r : RangeVmm} {w : ℕ}
    (h : (mapUserPages k mm flags addrs r).1 = 0) (hw : w ∈ addrs) :
    w < userVmaEnd ∧ ∃ g, r.user.mmPool[mm]? = some g ∧ g ≠ 0 := by
  induction addrs generalizing r with
  | nil => exact absurd hw List.not_mem_nil
  | cons addr addrs ih =>
    have hminus : (-1 : ℤ) ≠ 0 := by decide
    unfold mapUserPages at h
    dsimp only at h
    split at h
    · exact absurd h hminus
    · split at h
      · next hne => exact absurd h hne
      · next hzero =>
        obtain ⟨-, hpool⟩ := vmmMapUserPage_ret (k := k) r.pmmAllocPage.2.user (some mm) addr
          r.pmmAllocPage.1 flags
        rcases List.mem_cons.mp hw with rfl | hw
        · rcases vmmMapUserPage_cases (k := k) r.pmmAllocPage.2.user (some mm) w
            r.pmmAllocPage.1 flags with heq | ⟨a, g, ha, hg, hne, hlt, -⟩
          · rw [heq] at hzero
            exact absurd hminus hzero
          · obtain rfl := Option.some.inj ha
            exact ⟨hlt, g, hg, hne⟩
        · obtain ⟨hlt, g, hg, hne⟩ := ih h hw
          dsimp only at hg
          rw [hpool] at hg
          exact ⟨hlt, g, hg, hne⟩

theorem vmmMapUserPage_suffix (h : u.Isolated k) (ha : u.mmPool[a.val]? = some g)
    (vaddr paddr flags : ℕ) :
    (vmmMapUserPage k u (some a.val) vaddr paddr flags).2.vmm.pmm <:+ u.vmm.pmm := by
  rcases vmmMapUserPage_cases (k := k) u (some a.val) vaddr paddr flags with
    heq | ⟨_, g', hsome, ha', hg, hv, -⟩
  · rw [heq]
  · obtain rfl := Option.some.inj hsome
    obtain rfl := Option.some.inj (ha.symm.trans ha')
    rcases vmmMapUserPage_spends h ha hg hv paddr flags with ⟨s', heq, hadded⟩ | ⟨s', heq, -, hlacks⟩
    · rw [heq]
      exact hadded.spends.suffix
    · rw [heq, hlacks.pmm]
      exact List.drop_suffix _ _

theorem mapUserPages_isolated {r : RangeVmm} (mm flags : ℕ) (addrs : List ℕ) (h : r.user.Isolated k) :
    (mapUserPages k mm flags addrs r).2.user.Isolated k := by
  induction addrs generalizing r with
  | nil => exact h
  | cons addr addrs ih =>
    unfold mapUserPages RangeVmm.pmmAllocPage
    dsimp only
    have hstep := h.alloc.step (c := .mapUserPage (some mm) addr r.user.vmm.pmmAllocPage.1 flags) rfl
    split
    · exact h.alloc
    · split
      · exact hstep
      · exact ih hstep

theorem mapUserPages_freed {r : RangeVmm} (h : r.user.Isolated k)
    (ha : r.user.mmPool[a.val]? = some g) (flags : ℕ) (addrs : List ℕ) :
    let x := mapUserPages k a.val flags addrs r
    x.2.user.vmm.pmm <:+ r.user.vmm.pmm ∧
      ∃ l, x.2.freed = r.freed ++ l ∧ ∀ f ∈ l, f ∈ r.user.vmm.pmm := by
  induction addrs generalizing r with
  | nil => exact ⟨List.suffix_refl _, [], (List.append_nil _).symm, by simp⟩
  | cons addr addrs ih =>
    have htail : r.user.vmm.pmmAllocPage.2.pmm <:+ r.user.vmm.pmm := List.tail_suffix _
    unfold mapUserPages RangeVmm.pmmAllocPage
    dsimp only
    split
    · exact ⟨htail, [], (List.append_nil _).symm, by simp⟩
    · next hpaddr =>
      have hstep := h.alloc.step (c := .mapUserPage (some a.val) addr r.user.vmm.pmmAllocPage.1 flags) rfl
      have hsuffix :=
        (vmmMapUserPage_suffix h.alloc ha addr r.user.vmm.pmmAllocPage.1 flags).trans htail
      obtain ⟨-, hpool⟩ := vmmMapUserPage_ret (k := k) ⟨r.user.vmm.pmmAllocPage.2, r.user.mmPool⟩
        (some a.val) addr r.user.vmm.pmmAllocPage.1 flags
      split
      · refine ⟨hsuffix, [r.user.vmm.pmmAllocPage.1], rfl, fun f hf => ?_⟩
        rw [List.mem_singleton.mp hf]
        exact (Vmm.pmmAllocPage_took hpaddr).mem
      · obtain ⟨hsuffix', l, hl, hmem⟩ := ih (r := { r with user := (vmmMapUserPage k
          ⟨r.user.vmm.pmmAllocPage.2, r.user.mmPool⟩ (some a.val) addr
          r.user.vmm.pmmAllocPage.1 flags).2 }) hstep (by rw [hpool]; exact ha)
        exact ⟨hsuffix'.trans hsuffix, l, hl, fun f hf => hsuffix.subset (hmem f hf)⟩

end UserVmm

/-- The address `w` is that of a page of the range, rounded to pages. -/
def InRange (vaddr size w : ℕ) : Prop := pageSize ∣ w ∧ rangeStart vaddr ≤ w ∧ w < vaddr + size

section Range

variable {vaddr size w : ℕ}

theorem rangeEnd_eq (vaddr size : ℕ) : rangeEnd vaddr size =
    (vaddr + size + (pageSize - 1)) % 2 ^ 64 / pageSize * pageSize :=
  align_pageSize_eq _

theorem mem_rangePages : w ∈ rangePages vaddr size ↔
    ∃ i < (rangeEnd vaddr size - rangeStart vaddr) / pageSize, rangeStart vaddr + i * pageSize = w := by
  simp [rangePages]

theorem lt_rangeEnd_of_mem (hw : w ∈ rangePages vaddr size) :
    rangeStart vaddr ≤ w ∧ w + pageSize ≤ rangeEnd vaddr size := by
  obtain ⟨i, hi, rfl⟩ := mem_rangePages.mp hw
  have hpage : pageSize = 4096 := rfl
  rw [hpage] at hi ⊢
  omega

theorem mem_rangePages_iff (hv : vaddr < 2 ^ 64)
    (hwrap : vaddr + size + (pageSize - 1) < 2 ^ 64) :
    w ∈ rangePages vaddr size ↔ InRange vaddr size w := by
  have hpage : pageSize = 4096 := rfl
  have hstart : rangeStart vaddr = vaddr / pageSize * pageSize := alignDown_pageSize hv
  have hend := rangeEnd_eq vaddr size
  rw [Nat.mod_eq_of_lt hwrap] at hend
  rw [mem_rangePages, InRange, hstart, hend, hpage]
  constructor
  · rintro ⟨i, hi, rfl⟩
    omega
  · rintro ⟨⟨q, rfl⟩, hle, hlt⟩
    exact ⟨q - vaddr / 4096, by omega, by omega⟩

theorem exists_inRange_of_wrap (hv : vaddr < 2 ^ 64)
    (hwrap : 2 ^ 64 ≤ vaddr + size + (pageSize - 1)) :
    ∃ w, InRange vaddr size w ∧ rangeEnd vaddr size < w + pageSize := by
  have hpage : pageSize = 4096 := rfl
  have hstart : rangeStart vaddr = vaddr / pageSize * pageSize := alignDown_pageSize hv
  have hend := rangeEnd_eq vaddr size
  rw [hpage] at hwrap
  refine ⟨(vaddr + size - 1) / pageSize * pageSize, ⟨Nat.dvd_mul_left _ _, ?_, ?_⟩, ?_⟩
  · rw [hstart, hpage]
    omega
  · rw [hpage]
    omega
  · rw [hend, hpage]
    omega

theorem pageSize_dvd_of_mem (hv : vaddr < 2 ^ 64) (hw : w ∈ rangePages vaddr size) :
    pageSize ∣ w := by
  obtain ⟨i, -, rfl⟩ := mem_rangePages.mp hw
  rw [rangeStart, alignDown_pageSize hv]
  exact Nat.dvd_add (Nat.dvd_mul_left _ _) (Nat.dvd_mul_left _ _)

theorem exists_last_rangePage (hv : vaddr < 2 ^ 64) (hne : rangePages vaddr size ≠ []) :
    ∃ w ∈ rangePages vaddr size, w + pageSize = rangeEnd vaddr size := by
  have hpage : pageSize = 4096 := rfl
  have hstart : rangeStart vaddr = vaddr / pageSize * pageSize := alignDown_pageSize hv
  have hend := rangeEnd_eq vaddr size
  obtain ⟨w, hw⟩ := List.exists_mem_of_ne_nil _ hne
  obtain ⟨hle, hlt⟩ := lt_rangeEnd_of_mem hw
  refine ⟨rangeEnd vaddr size - pageSize, mem_rangePages.mpr
    ⟨(rangeEnd vaddr size - rangeStart vaddr) / pageSize - 1, ?_, ?_⟩, ?_⟩
  · rw [hpage] at hlt ⊢
    omega
  · rw [hstart] at hle ⊢
    rw [hend] at hlt ⊢
    rw [hpage] at hle hlt ⊢
    omega
  · omega

theorem pairwise_rangePages (hend : ∀ w ∈ rangePages vaddr size, w < userVmaEnd) :
    (rangePages vaddr size).Pairwise fun v w => vpn v ≠ vpn w := by
  rw [rangePages, List.pairwise_map]
  refine List.pairwise_lt_range.imp_of_mem fun {i j} hi hj hij heq => ?_
  have hmem {i : ℕ} (hi : i ∈ List.range ((rangeEnd vaddr size - rangeStart vaddr) / pageSize)) :
      rangeStart vaddr + i * pageSize ∈ rangePages vaddr size :=
    mem_rangePages.mpr ⟨i, List.mem_range.mp hi, rfl⟩
  have hi' := hend _ (hmem hi)
  have hj' := hend _ (hmem hj)
  have hval := congrArg Fin.val heq
  have hpage : pageSize = 4096 := rfl
  have hend : userVmaEnd = 2 ^ 47 := rfl
  unfold vpn at hval
  dsimp only at hval
  rw [hpage] at hi' hj' hval
  omega

end Range

/-- A call that fails leaves the address space as it was and gives its frames back; one that returns 0
adds one VMA, and maps a fresh frame at every page. -/
structure MapsRange (r r' : RangeVmm) (ret : ℤ) (mm g vaddr size : ℕ) : Prop where
  fails : ret < 0 → r'.vmaList = r.vmaList ∧ r'.totalVm = r.totalVm ∧
    (∀ w, translate r'.user.vmm g w = translate r.user.vmm g w) ∧
    ∃ l, r'.freed = r.freed ++ l ∧ ∀ f, Vmm.Took r.user.vmm r'.user.vmm f → f ∈ l
  maps : ret = 0 →
    (∃ vma, r'.vmaList = Function.update r.vmaList mm (vma :: r.vmaList mm) ∧
      ∀ w, InRange vaddr size w → vma.start ≤ w ∧ w + pageSize ≤ vma.end_) ∧
    ∃ frame : ℕ → ℕ, Set.InjOn frame {w | InRange vaddr size w} ∧ ∀ w, InRange vaddr size w →
      Vmm.Took r.user.vmm r'.user.vmm (frame w) ∧ translate r'.user.vmm g w = some (frame w)

/-- With a VMA left there must be frames and addresses for the whole range. Without one the call must
fail at the first page, before it took a frame for a table. -/
def RangeFits (r : RangeVmm) (mm : Fin vmmEntries) (g vaddr size : ℕ) : Prop :=
  let s := r.user.vmm
  let pages := rangePages vaddr size
  if r.vmaIndex < vmaPoolSize then
    vaddr + size + (pageSize - 1) < 2 ^ 64 ∧
      (pages = [] ∨ g ≠ 0 ∧ rangeEnd vaddr size ≤ userVmaEnd ∧
        s.framesFor (r.user.missingTables (UserVmm.rangeSteps mm pages)).card pages.length ≤ s.available)
  else
    ∃ w ∈ pages.head?, s.pmm.headD 0 = 0 ∨ g = 0 ∨ userVmaEnd ≤ w ∨
      s.earlyLeft < (r.user.missingTables (UserVmm.pageSteps mm w)).card ∧ s.pmm.tail.headD 0 = 0

theorem translateLevels_congr {s s' : Vmm} (hmem : s'.mem = s.mem) (w : ℕ) (levels : List (Fin 4)) (t : ℕ) :
    translateLevels s' w levels t = translateLevels s w levels t := by
  have hpte : s'.pte = s.pte := by
    unfold Vmm.pte
    rw [hmem]
  induction levels generalizing t with
  | nil => rfl
  | cons level levels ih =>
    unfold translateLevels
    rw [hpte]
    simp only [ih]

namespace UserVmm

variable {k : KernelImage} {u : UserVmm} {s' : Vmm} {g : ℕ} {a : Fin vmmEntries}

theorem Extends.translate (hext : Extends k u s') (h : u.Isolated k)
    (ha : u.mmPool[a.val]? = some g) (hg : g ≠ 0) (w : ℕ) :
    translate s' g w = Mm.translate u.vmm g w := by
  rw [h.translate_eq ha hg, hext.isolated.translate_eq ha hg, hext.kernel.translate, hext.userPage_eq]

theorem Isolated.translate_page (h : u.Isolated k) (ha : u.mmPool[a.val]? = some g) (hg : g ≠ 0)
    {w f : ℕ} (hw : w < userVmaEnd) (hal : pageSize ∣ w) (hf : u.userPage a (vpn w) = some f) :
    translate u.vmm g w = some f := by
  rw [h.translate_eq ha hg, if_pos (pteIndex_lt_of_user hw), hf, Option.map_some,
    Nat.mod_eq_zero_of_dvd hal, Nat.add_zero]

end UserVmm

section Calls

variable {k : KernelImage} {r : RangeVmm} {a : Fin vmmEntries} {g vaddr size flags : ℕ}

theorem vmmMapUserRange_eq (k : KernelImage) (r : RangeVmm) (mm vaddr size flags : ℕ) :
    vmmMapUserRange k r (some mm) vaddr size flags =
      mapUserPages k mm flags (rangePages vaddr size)
        (vmmAddVma r mm (rangeStart vaddr) (rangeEnd vaddr size) flags).2 := rfl

theorem vmmAddVma_slot (hslot : r.vmaIndex < vmaPoolSize) (mm start end_ flags : ℕ) :
    let r' := (vmmAddVma r mm start end_ flags).2
    r'.user = r.user ∧
      r'.vmaList = Function.update r.vmaList mm (⟨start, end_, flags⟩ :: r.vmaList mm) := by
  simp only [vmmAddVma, if_neg (Nat.not_le.mpr hslot), and_self]

theorem vmmAddVma_full {mm start end_ : ℕ} (hfull : ¬r.vmaIndex < vmaPoolSize) :
    (vmmAddVma r mm start end_ flags).2 = r := by
  rw [vmmAddVma, if_pos (Nat.le_of_not_lt hfull)]

theorem update_cons_ne (f : ℕ → List Vma) (mm : ℕ) (vma : Vma) :
    Function.update f mm (vma :: f mm) ≠ f := by
  intro heq
  have hcons := congrFun heq mm
  rw [Function.update_self] at hcons
  exact List.cons_ne_self _ _ hcons

theorem mapUserPages_fits {r₁ : RangeVmm} (h : r₁.user.Isolated k)
    (ha : r₁.user.mmPool[a.val]? = some g) (hpages : rangePages vaddr size = [] ∨
      g ≠ 0 ∧ rangeEnd vaddr size ≤ userVmaEnd ∧ r₁.user.vmm.framesFor
        (r₁.user.missingTables (UserVmm.rangeSteps a (rangePages vaddr size))).card
        (rangePages vaddr size).length ≤ r₁.user.vmm.available) (hv : vaddr < 2 ^ 64) (flags : ℕ) :
    let x := mapUserPages k a.val flags (rangePages vaddr size) r₁
    x.1 = 0 ∧ ∃ frame : ℕ → ℕ, Set.InjOn frame {w | w ∈ rangePages vaddr size} ∧
      ∀ w ∈ rangePages vaddr size, Vmm.Took r₁.user.vmm x.2.user.vmm (frame w) ∧
        translate x.2.user.vmm g w = some (frame w) := by
  rcases hpages with hnil | ⟨hg, hend, hframes⟩
  · rw [hnil]
    exact ⟨rfl, id, by simp, by simp⟩
  · have hlt : ∀ w ∈ rangePages vaddr size, w < userVmaEnd := by
      intro w hw
      have hpos : 0 < pageSize := by decide
      have := (lt_rangeEnd_of_mem hw).2
      omega
    rcases UserVmm.mapUserPages_spends h ha hg hlt (pairwise_rangePages hlt) flags with
      ⟨u', hx, -, hmapped⟩ | ⟨-, hshort⟩
    · rw [hx]
      obtain ⟨frame, hinj, hframe⟩ := hmapped.frames
      refine ⟨rfl, frame, hinj, fun w hw => ⟨(hframe w hw).1, ?_⟩⟩
      have ha' : u'.mmPool[a.val]? = some g := by rw [hmapped.pool, ha]
      exact hmapped.isolated.translate_page ha' hg (hlt w hw) (pageSize_dvd_of_mem hv hw)
        (hframe w hw).2
    · exact absurd hframes (Nat.not_le.mpr hshort)

theorem fits_of_mapUserPages {r₁ : RangeVmm} (h : r₁.user.Isolated k)
    (ha : r₁.user.mmPool[a.val]? = some g) (hv : vaddr < 2 ^ 64)
    (hzero : (mapUserPages k a.val flags (rangePages vaddr size) r₁).1 = 0) :
    rangePages vaddr size = [] ∨ g ≠ 0 ∧ rangeEnd vaddr size ≤ userVmaEnd ∧
      r₁.user.vmm.framesFor
        (r₁.user.missingTables (UserVmm.rangeSteps a (rangePages vaddr size))).card
        (rangePages vaddr size).length ≤ r₁.user.vmm.available := by
  by_cases hnil : rangePages vaddr size = []
  · exact .inl hnil
  have hlt : ∀ w ∈ rangePages vaddr size, w < userVmaEnd :=
    fun w hw => (UserVmm.mapUserPages_zero hzero hw).1
  obtain ⟨w, hw, hlast⟩ := exists_last_rangePage hv hnil
  have hg : g ≠ 0 := by
    obtain ⟨-, g', hg', hne⟩ := UserVmm.mapUserPages_zero hzero hw
    rw [Option.some.inj (ha.symm.trans hg')]
    exact hne
  refine .inr ⟨hg, ?_, ?_⟩
  · obtain ⟨q, hq⟩ := pageSize_dvd_of_mem hv hw
    have hw' := hlt w hw
    have hpage : pageSize = 4096 := rfl
    have hend : userVmaEnd = 2 ^ 47 := rfl
    rw [hq, hend, hpage] at hw'
    rw [← hlast, hq, hend, hpage]
    omega
  · rcases UserVmm.mapUserPages_spends h ha hg hlt (pairwise_rangePages hlt) flags with
      ⟨u', -, hspends, -⟩ | ⟨hneg, -⟩
    · rw [hspends.available]
      exact Nat.le_add_right _ _
    · rw [hneg] at hzero
      exact absurd hzero (by decide)

/-- The VMA is not taken back, so that a call with a VMA left must succeed. -/
theorem mapsRange_iff_of_slot (h : r.user.Isolated k) (ha : r.user.mmPool[a.val]? = some g)
    (hslot : r.vmaIndex < vmaPoolSize) (hv : vaddr < 2 ^ 64) :
    let x := vmmMapUserRange k r (some a.val) vaddr size flags
    MapsRange r x.2 x.1 a.val g vaddr size ↔ RangeFits r a g vaddr size := by
  obtain ⟨r₁, hr₁⟩ : ∃ r₁, r₁ = (vmmAddVma r a.val (rangeStart vaddr) (rangeEnd vaddr size) flags).2 :=
    ⟨_, rfl⟩
  obtain ⟨huser, hlist⟩ := vmmAddVma_slot hslot a.val (rangeStart vaddr) (rangeEnd vaddr size) flags
  rw [← hr₁] at huser hlist
  rw [vmmMapUserRange_eq, ← hr₁]
  have h₁ : r₁.user.Isolated k := huser ▸ h
  have ha₁ : r₁.user.mmPool[a.val]? = some g := huser ▸ ha
  obtain ⟨hret, hlist', -, -⟩ :=
    UserVmm.mapUserPages_same (k := k) a.val flags (rangePages vaddr size) r₁
  rw [hlist] at hlist'
  unfold RangeFits
  dsimp only
  rw [if_pos hslot]
  constructor
  · intro hmaps
    have hzero : (mapUserPages k a.val flags (rangePages vaddr size) r₁).1 = 0 := by
      refine hret.resolve_right fun hneg => ?_
      have hsame := (hmaps.fails (by rw [hneg]; decide)).1
      exact update_cons_ne _ _ _ (hlist'.symm.trans hsame)
    obtain ⟨⟨vma, hvma, hcover⟩, -⟩ := hmaps.maps hzero
    have hend : vma.end_ = rangeEnd vaddr size := by
      have hcons := congrFun (hlist'.symm.trans hvma) a.val
      rw [Function.update_self, Function.update_self] at hcons
      rw [← (List.cons.inj hcons).1]
    have hwrap : vaddr + size + (pageSize - 1) < 2 ^ 64 := by
      by_contra hwrap
      obtain ⟨w, hw, hlt⟩ := exists_inRange_of_wrap hv (Nat.le_of_not_lt hwrap)
      have := (hcover w hw).2
      omega
    have hfits := fits_of_mapUserPages h₁ ha₁ hv hzero
    rw [huser] at hfits
    exact ⟨hwrap, hfits⟩
  · rintro ⟨hwrap, hfits⟩
    rw [← huser] at hfits
    obtain ⟨hzero, frame, hinj, hframes⟩ := mapUserPages_fits h₁ ha₁ hfits hv flags
    have hmem (w : ℕ) : w ∈ rangePages vaddr size ↔ InRange vaddr size w :=
      mem_rangePages_iff hv hwrap
    refine ⟨fun hneg => ?_, fun _ => ⟨⟨_, hlist', fun w hw => ?_⟩, frame, ?_, fun w hw => ?_⟩⟩
    · rw [hzero] at hneg
      exact absurd hneg (lt_irrefl 0)
    · exact lt_rangeEnd_of_mem ((hmem w).mpr hw)
    · intro w hw w' hw' heq
      exact hinj ((hmem w).mpr hw) ((hmem w').mpr hw') heq
    · rw [← huser]
      exact hframes w ((hmem w).mpr hw)

theorem mapsRange_of_clean {r' : RangeVmm} {l : List ℕ} {mm : ℕ} (hlist : r'.vmaList = r.vmaList)
    (htotal : r'.totalVm = r.totalVm)
    (htranslate : ∀ w, translate r'.user.vmm g w = translate r.user.vmm g w)
    (hfreed : r'.freed = r.freed ++ l) (htook : ∀ f, Vmm.Took r.user.vmm r'.user.vmm f → f ∈ l) :
    MapsRange r r' (-1) mm g vaddr size :=
  ⟨fun _ => ⟨hlist, htotal, htranslate, l, hfreed, htook⟩, fun hzero => absurd hzero (by decide)⟩

theorem not_mapsRange {r' : RangeVmm} {ret : ℤ} {l : List ℕ} {mm f : ℕ} (hret : ret = 0 ∨ ret = -1)
    (hlist : r'.vmaList = r.vmaList) (hfreed : r'.freed = r.freed ++ l)
    (htook : Vmm.Took r.user.vmm r'.user.vmm f) (hf : f ∉ l) :
    ¬MapsRange r r' ret mm g vaddr size := by
  intro hmaps
  rcases hret with hzero | hneg
  · obtain ⟨⟨vma, hvma, -⟩, -⟩ := hmaps.maps hzero
    exact update_cons_ne _ _ _ (hvma.symm.trans hlist)
  · obtain ⟨-, -, -, l', hl', htaken⟩ := hmaps.fails (by rw [hneg]; decide)
    rw [hfreed] at hl'
    exact hf (List.append_cancel_left hl' ▸ htaken f htook)

/-- Without a VMA left the call must fail, and only the frame of the page itself is given back. -/
theorem mapsRange_iff_of_full (h : r.user.Isolated k) (ha : r.user.mmPool[a.val]? = some g)
    (hfull : ¬r.vmaIndex < vmaPoolSize) :
    let x := vmmMapUserRange k r (some a.val) vaddr size flags
    MapsRange r x.2 x.1 a.val g vaddr size ↔ RangeFits r a g vaddr size := by
  rw [vmmMapUserRange_eq, vmmAddVma_full hfull]
  unfold RangeFits
  dsimp only
  rw [if_neg hfull]
  cases rangePages vaddr size with
  | nil =>
    refine iff_of_false (fun hmaps => ?_) (by simp)
    obtain ⟨⟨vma, hvma, -⟩, -⟩ := hmaps.maps rfl
    exact update_cons_ne _ _ _ hvma.symm
  | cons w ws =>
    obtain ⟨s₁, hs₁⟩ : ∃ s₁, s₁ = r.user.vmm.pmmAllocPage.2 := ⟨_, rfl⟩
    have hfirst : r.user.vmm.pmm.headD 0 = r.user.vmm.pmmAllocPage.1 := rfl
    have hsecond : r.user.vmm.pmm.tail.headD 0 = s₁.pmmAllocPage.1 := by rw [hs₁]; rfl
    have hmem : s₁.mem = r.user.vmm.mem := by rw [hs₁]; rfl
    have h₁ : UserVmm.Isolated k ⟨s₁, r.user.mmPool⟩ := hs₁ ▸ h.alloc
    have hmissing : UserVmm.missingTables ⟨s₁, r.user.mmPool⟩ = r.user.missingTables := by rw [hs₁]; rfl
    have hleft : s₁.earlyLeft = r.user.vmm.earlyLeft := by rw [hs₁]; rfl
    have hsame (w : ℕ) : translate s₁ g w = translate r.user.vmm g w :=
      translateLevels_congr hmem w [0, 1, 2, 3] g
    simp only [List.head?_cons, Option.mem_def, Option.some.injEq, exists_eq_left', hfirst, hsecond]
    unfold mapUserPages RangeVmm.pmmAllocPage
    dsimp only
    by_cases hpaddr : r.user.vmm.pmmAllocPage.1 = 0
    · rw [if_pos hpaddr]
      refine iff_of_true (mapsRange_of_clean rfl rfl (hs₁ ▸ hsame) (List.append_nil _).symm ?_)
        (.inl hpaddr)
      intro f hf
      exact absurd (hf.eq_pmmAllocPage.trans hpaddr) hf.1
    rw [if_neg hpaddr, ← hs₁]
    by_cases hbad : g = 0 ∨ userVmaEnd ≤ w
    · have hcall : vmmMapUserPage k ⟨s₁, r.user.mmPool⟩ (some a.val) w r.user.vmm.pmmAllocPage.1
          flags = (-1, ⟨s₁, r.user.mmPool⟩) := by
        simp only [vmmMapUserPage, Option.bind_some, ha]
        rcases hbad with hg | hw
        · rw [if_pos hg]
        · rw [if_pos hw, ite_self]
      rw [hcall]
      refine iff_of_true (mapsRange_of_clean rfl rfl hsame rfl ?_) (.inr (hbad.imp_right .inl))
      intro f hf
      rw [List.mem_singleton]
      exact (hs₁ ▸ hf).eq_pmmAllocPage
    · rw [not_or] at hbad
      have hw : w < userVmaEnd := Nat.lt_of_not_le hbad.2
      have htook : Vmm.Took r.user.vmm s₁ r.user.vmm.pmmAllocPage.1 :=
        hs₁ ▸ Vmm.pmmAllocPage_took hpaddr
      have hsuffix : s₁.pmm <:+ r.user.vmm.pmm := hs₁ ▸ List.tail_suffix _
      have hne {f : ℕ} (hf : f ∈ s₁.pmm) : f ≠ r.user.vmm.pmmAllocPage.1 :=
        (h.supply.ne_pmmAllocPage hpaddr (hs₁ ▸ hf)).symm
      rcases UserVmm.vmmMapUserPage_spends h₁ ha hbad.1 hw r.user.vmm.pmmAllocPage.1 flags with
        ⟨s', hcall, hadded⟩ | ⟨s', hcall, hext, hlacks⟩
      · -- the page is mapped, and whatever follows leaves its frame there
        rw [hcall]
        obtain ⟨hret, hlist, -, -⟩ := UserVmm.mapUserPages_same (k := k) a.val flags ws
          { r with user := ⟨s', r.user.mmPool⟩ }
        obtain ⟨hrest, l, hl, hlmem⟩ := UserVmm.mapUserPages_freed
          (r := { r with user := ⟨s', r.user.mmPool⟩ }) hadded.isolated ha flags ws
        have hs' : s'.pmm <:+ s₁.pmm := hadded.spends.suffix
        refine iff_of_false (not_mapsRange hret hlist hl (htook.after (hrest.trans hs')) fun hf =>
          hne (hs'.subset (hlmem _ hf)) rfl) ?_
        rintro (hzero | hzero | hle | ⟨hearly, hnone⟩)
        · exact hpaddr hzero
        · exact hbad.1 hzero
        · exact hbad.2 hle
        · have hspent := hadded.spends.available
          dsimp only at hspent
          rw [Vmm.available_eq_zero hnone, hmissing, Vmm.framesFor, hleft] at hspent
          omega
      · rw [hcall]
        have hshort := hlacks.short
        dsimp only at hshort
        rw [hmissing, Vmm.framesFor, hleft] at hshort
        by_cases hnone : s₁.pmmAllocPage.1 = 0
        · have hs' : s'.pmm = s₁.pmmAllocPage.2.pmm := by
            rw [hlacks.pmm]
            dsimp only
            rw [Vmm.available_eq_zero hnone]
            exact List.drop_one
          refine iff_of_true (mapsRange_of_clean rfl rfl ?_ rfl ?_) (.inr (.inr (.inr ⟨by omega, hnone⟩)))
          · intro v
            exact (hext.translate h₁ ha hbad.1 v).trans (hsame v)
          · intro f hf
            rw [List.mem_singleton]
            rcases hf.split hsuffix (hs' ▸ List.tail_suffix _) with hf | hf
            · exact (hs₁ ▸ hf).eq_pmmAllocPage
            · have hf' : Vmm.Took s₁ s₁.pmmAllocPage.2 f := by
                unfold Vmm.Took at hf ⊢
                rw [← hs']
                exact hf
              exact absurd (hf'.eq_pmmAllocPage.trans hnone) hf'.1
        · -- the frame of a table was taken, and is not the one that is given back
          have hs' : s'.pmm <:+ s₁.pmmAllocPage.2.pmm := by
            rw [hlacks.pmm, Nat.add_comm, ← List.drop_drop, List.drop_one]
            exact List.drop_suffix _ _
          have htable := (Vmm.pmmAllocPage_took hnone).after hs'
          refine iff_of_false (not_mapsRange (.inr rfl) rfl rfl (htable.before hsuffix) ?_) ?_
          · rw [List.mem_singleton]
            exact hne htable.mem
          · rintro (hzero | hzero | hle | ⟨-, hzero⟩)
            · exact hpaddr hzero
            · exact hbad.1 hzero
            · exact hbad.2 hle
            · exact hnone hzero

end Calls

/-- Page frames that are neither tables nor given twice. -/
structure UserVmm.FreeFrames (k : KernelImage) (u : UserVmm) (pmm : List ℕ) : Prop where
  aligned : ∀ f ∈ pmm, pageSize ∣ f
  lt : ∀ f ∈ pmm, f < 2 ^ 48
  not_early : ∀ f ∈ pmm, ∀ i, u.vmm.earlyTableIndex ≤ i → i < earlyTablesCount → f ≠ earlyTable k i
  distinct : pmm.Pairwise fun f g => f = 0 ∨ f ≠ g
  own : ∀ f ∈ pmm, f ≠ 0 → ∀ p, p.length ≤ 4 → u.ownTable p ≠ some (some f)
  kernel : ∀ f ∈ pmm, f ≠ 0 → ∀ q, q.length ≤ 3 → u.vmm.table k q ≠ some f

inductive RangeCall
  | user (c : UserCall)
  | addVma (mm start end_ flags : ℕ)
  | mapUserRange (mm : Option ℕ) (vaddr size flags : ℕ)
  -- from now on the page allocator returns these frames, those given back among them
  | frames (pmm : List ℕ)

def RangeStep (k : KernelImage) (r : RangeVmm) (c : RangeCall) (r' : RangeVmm) : Prop :=
  match c with
  | .user c => ∃ u, UserStep k r.user c u ∧ r' = { r with user := u }
  | .addVma mm start end_ flags => (vmmAddVma r mm start end_ flags).2 = r'
  | .mapUserRange mm vaddr size flags => (vmmMapUserRange k r mm vaddr size flags).2 = r'
  | .frames pmm => UserVmm.FreeFrames k r.user pmm ∧
    r' = { r with user := ⟨{ r.user.vmm with pmm := pmm }, r.user.mmPool⟩ }

def RangeVmm.boot (s : Vmm) : RangeVmm := ⟨⟨s, []⟩, 0, fun _ => [], fun _ => 0, []⟩

section Run

variable {k : KernelImage} {r r' : RangeVmm}

theorem UserVmm.Isolated.frames {u : UserVmm} (h : u.Isolated k) {pmm : List ℕ}
    (hpmm : u.FreeFrames k pmm) : Isolated k ⟨{ u.vmm with pmm := pmm }, u.mmPool⟩ := by
  refine ⟨⟨hpmm.aligned, hpmm.lt, hpmm.not_early, hpmm.distinct⟩, h.pool, h.aligned, h.sep, h.pos,
    h.noBlocks, h.upper, h.kernel, ?_, ?_⟩
  · rintro n ⟨hn, hmem | hearly⟩ p hp
    · exact hpmm.own n hmem hn p hp
    · exact h.free_own n ⟨hn, .inr hearly⟩ p hp
  · rintro n ⟨hn, hmem | hearly⟩ q hq
    · exact hpmm.kernel n hmem hn q hq
    · exact h.free_kernel n ⟨hn, .inr hearly⟩ q hq

theorem vmmAddVma_user (r : RangeVmm) (mm start end_ flags : ℕ) :
    (vmmAddVma r mm start end_ flags).2.user = r.user := by
  unfold vmmAddVma
  split <;> rfl

theorem rangeStep_isolated {c : RangeCall} (h : r.user.Isolated k) (hstep : RangeStep k r c r') :
    r'.user.Isolated k := by
  cases c with
  | user c =>
    obtain ⟨u, hu, rfl⟩ := hstep
    exact h.step hu
  | addVma mm start end_ flags =>
    rw [← show (vmmAddVma r mm start end_ flags).2 = r' from hstep, vmmAddVma_user]
    exact h
  | mapUserRange mm vaddr size flags =>
    rw [← show (vmmMapUserRange k r mm vaddr size flags).2 = r' from hstep]
    cases mm with
    | none => exact h
    | some mm =>
      rw [vmmMapUserRange_eq]
      exact UserVmm.mapUserPages_isolated mm flags _ ((vmmAddVma_user r mm _ _ flags).symm ▸ h)
  | frames pmm =>
    obtain ⟨hpmm, rfl⟩ := hstep
    exact h.frames hpmm

end Run

/-- In every state that the calls lead to, `vmm_map_user_range` does as promised exactly for the ranges
that fit. -/
theorem map_user_range_iff {k : KernelImage} {s₀ : Vmm} {calls : List RangeCall} {r : RangeVmm}
    (hf : s₀.FreshFrames k)
    (hearly : ∀ i p, s₀.earlyTableIndex ≤ i → i < earlyTablesCount → p.length ≤ 3 →
      s₀.table k p ≠ some (earlyTable k i))
    (hrun : Exec (RangeStep k) (RangeVmm.boot s₀) calls r) {a : Fin vmmEntries} {g : ℕ}
    (ha : r.user.mmPool[a.val]? = some g) {vaddr : ℕ} (hv : vaddr < 2 ^ 64) (size flags : ℕ) :
    let x := vmmMapUserRange k r (some a.val) vaddr size flags
    MapsRange r x.2 x.1 a.val g vaddr size ↔ RangeFits r a g vaddr size := by
  have hboot : (RangeVmm.boot s₀).user.Isolated k := UserVmm.isolated_nil hf hearly
  have h : r.user.Isolated k :=
    Exec.invariant (I := fun r : RangeVmm => r.user.Isolated k)
      (fun _ _ _ hr hstep => rangeStep_isolated hr hstep) hrun hboot
  by_cases hslot : r.vmaIndex < vmaPoolSize
  · exact mapsRange_iff_of_slot h ha hslot hv
  · exact mapsRange_iff_of_full h ha hslot

theorem map_user_range_two_pages :
    ∃ r, Exec (RangeStep smallImage) (RangeVmm.boot ⟨fun _ => 0, 0, [0x41000000, 0x41001000]⟩)
        [.user .createAddressSpace] r ∧
      let x := vmmMapUserRange smallImage r (some 0) 0x5800 0x1000 vmWrite
      MapsRange r x.2 x.1 0 0x40201000 0x5800 0x1000 := by
  have hfresh : Vmm.FreshFrames smallImage ⟨fun _ => 0, 0, [0x41000000, 0x41001000]⟩ := by
    refine ⟨by decide, by decide, ?_, ?_, by decide⟩
    · intro f hf p _ hp
      rw [(table_of_zero (fun _ => rfl) hp).2] at hf
      exact absurd hf (by decide)
    · intro f hf i _ hlt
      simp only [List.mem_cons, List.not_mem_nil, or_false] at hf
      rcases hf with rfl | rfl
      · revert hlt
        revert i
        decide
      · revert hlt
        revert i
        decide
  have htree : Vmm.TableTree smallImage ⟨fun _ => 0, 0, [0x41000000, 0x41001000]⟩ :=
    (tableTree_of_zero fun _ => rfl).1
  have hrun : ∃ r, Exec (RangeStep smallImage)
      (RangeVmm.boot ⟨fun _ => 0, 0, [0x41000000, 0x41001000]⟩) [.user .createAddressSpace] r ∧
      r.user.mmPool[0]? = some 0x40201000 ∧ RangeFits r ⟨0, by decide⟩ 0x40201000 0x5800 0x1000 := by
    refine ⟨_, .cons ⟨_, rfl, rfl⟩ (.nil _), by rfl, ?_⟩
    unfold RangeFits
    decide +kernel
  obtain ⟨r, hrun, hpool, hfits⟩ := hrun
  exact ⟨r, hrun, (map_user_range_iff hfresh htree.early hrun
    (a := ⟨0, by decide⟩) hpool (by decide) 0x1000 vmWrite).mpr hfits⟩

theorem map_user_range_keeps_vma :
    ∃ r, Exec (RangeStep smallImage) (RangeVmm.boot emptyVmm) [.user .createAddressSpace] r ∧
      r.user.mmPool[0]? = some 0x40201000 ∧ r.vmaList 0 = [] ∧
      let x := vmmMapUserRange smallImage r (some 0) 0x5000 0x1000 vmWrite
      x.1 = -1 ∧ x.2.vmaList 0 = [⟨0x5000, 0x6000, vmWrite⟩] ∧
        ¬MapsRange r x.2 x.1 0 0x40201000 0x5000 0x1000 := by
  refine ⟨_, .cons ⟨_, rfl, rfl⟩ (.nil _), by rfl, rfl, by decide +kernel, by decide +kernel, ?_⟩
  intro hmaps
  obtain ⟨hlist, -⟩ := hmaps.fails (by decide +kernel)
  exact absurd (congrFun hlist 0) (by decide +kernel)

end GcAos.Mm
