import GcAos.Mm.VmmTree

/-! Runs of `vmm_map_page` and `vmm_unmap_page` as runs of a partial map. -/

namespace GcAos.Mm
open Lib Vmm

abbrev PageMap := Vpn → Option ℕ

/-- A call with what it returned, and the results of `pmm_alloc_page` it may use up. -/
inductive VmmCall
  | mapPage (vaddr paddr flags : ℕ) (frames : List ℕ) (ret : ℤ)
  | unmapPage (vaddr : ℕ) (ret : ℤ)

/-- What the calls are for. A walk needs three tables at most, so `mapPage` runs out of memory only
when `pmm_alloc_page` fails before its fourth call. -/
inductive PageMapStep : PageMap → VmmCall → PageMap → Prop
  | insert {m : PageMap} {vaddr paddr flags : ℕ} {frames : List ℕ} :
      m (vpn vaddr) = none →
      PageMapStep m (.mapPage vaddr paddr flags frames 0)
        (Function.update m (vpn vaddr) (some paddr))
  | occupied {m : PageMap} {vaddr paddr flags : ℕ} {frames : List ℕ} :
      m (vpn vaddr) ≠ none → PageMapStep m (.mapPage vaddr paddr flags frames (-1)) m
  | outOfMemory {m : PageMap} {vaddr paddr flags : ℕ} {frames : List ℕ} :
      m (vpn vaddr) = none → (frames.takeWhile (· ≠ 0)).length < 3 →
      PageMapStep m (.mapPage vaddr paddr flags frames (-1)) m
  | delete {m : PageMap} {vaddr : ℕ} :
      m (vpn vaddr) ≠ none →
      PageMapStep m (.unmapPage vaddr 0) (Function.update m (vpn vaddr) none)
  | absent {m : PageMap} {vaddr : ℕ} :
      m (vpn vaddr) = none → PageMapStep m (.unmapPage vaddr (-1)) m

def pageMap (k : KernelImage) (s : Vmm) : PageMap := fun v =>
  if vmmVirtToPhys k s (v * pageSize) = 0 then none else some (vmmVirtToPhys k s (v * pageSize))

/-- A call on a page of `R`, with frames that are not used as tables. -/
inductive VmmStep (k : KernelImage) (R : Set Vpn) : Vmm → VmmCall → Vmm → Prop
  | mapPage {s s' : Vmm} {vaddr paddr flags : ℕ} {frames : List ℕ} {ret : ℤ} :
      vpn vaddr ∈ R → pageSize ∣ paddr → 0 < paddr → paddr < 2 ^ 48 →
      FreshFrames k { s with pmm := frames } →
      vmmMapPage k { s with pmm := frames } vaddr paddr flags = (ret, s') →
      VmmStep k R s (.mapPage vaddr paddr flags frames ret) s'
  | unmapPage {s s' : Vmm} {vaddr : ℕ} {ret : ℤ} :
      vpn vaddr ∈ R → vmmUnmapPage k s vaddr = (ret, s') →
      VmmStep k R s (.unmapPage vaddr ret) s'

variable {k : KernelImage} {s s' : Vmm} {R : Set Vpn} {vaddr paddr flags : ℕ} {ret : ℤ}

theorem vpn_mul_pageSize (v : Vpn) : vpn (v * pageSize) = v := by
  apply Fin.ext
  show v.val * pageSize / pageSize % 2 ^ 36 = v.val
  rw [Nat.mul_div_cancel _ (by decide), Nat.mod_eq_of_lt v.isLt]

theorem pageMap_eq (hs : s.TableTree k) : pageMap k s = s.page k := by
  funext v
  have hv : vmmVirtToPhys k s (v * pageSize) = (s.page k v).elim 0 id := by
    rw [vmmVirtToPhys_eq hs.tables, vpn_mul_pageSize, Nat.mul_mod_left]
    rfl
  unfold pageMap
  rw [hv]
  cases hp : s.page k v with
  | none => rfl
  | some paddr =>
    have hpos := hs.frame_pos v paddr hp
    rw [Option.elim_some, id_eq, if_neg hpos.ne']

theorem pteToPhys_page (paddr flags : ℕ) :
    pteToPhys (physToPte paddr (vmFlagsToPte flags)) = pteToPhys paddr := by
  unfold pteToPhys physToPte
  rw [Nat.and_or_distrib_right, vmFlagsToPte_and_mask, Nat.or_zero, Nat.and_assoc, Nat.and_self]

theorem vmmMapPage_effect (hs : s.Tables k) (hf : s.FreshFrames k)
    (hcall : vmmMapPage k s vaddr paddr flags = (ret, s')) :
    Kept k s s' ∧
      ((ret = 0 ∧ s.page k (vpn vaddr) = none ∧
          s'.page k = Function.update (s.page k) (vpn vaddr) (some (pteToPhys paddr))) ∨
        (ret = -1 ∧ s'.page k = s.page k ∧
          (s.page k (vpn vaddr) ≠ none ∨ (s.pmm.takeWhile (· ≠ 0)).length < 3 ∨
            s.Blocked k (vpn vaddr)))) := by
  have hw := walkPageTable_alloc vaddr hs hf
  unfold vmmMapPage at hcall
  rcases hwalk : walkPageTable k s k.kernelPgd vaddr true with ⟨r, s₁⟩
  rw [hwalk] at hw hcall
  dsimp only at hw hcall
  rcases hw.result with ⟨h0, hwhy⟩ | htab
  · rw [if_pos h0] at hcall
    obtain ⟨rfl, rfl⟩ := Prod.mk.inj hcall
    exact ⟨hw.toKept, .inr ⟨rfl, hw.page_eq, .inr hwhy⟩⟩
  · have hr0 := hw.tables.table_pos _ r (le_refl 3) htab
    have hpage : s.page k (vpn vaddr) =
        if pteIsValid (s₁.pte r ((vpn vaddr).index 3)) then
          some (pteToPhys (s₁.pte r ((vpn vaddr).index 3))) else none := by
      rw [← hw.page_eq, page, htab]
      rfl
    rw [if_neg hr0.ne', pteIndex_eq] at hcall
    split at hcall
    · next hvalid =>
      obtain ⟨rfl, rfl⟩ := Prod.mk.inj hcall
      refine ⟨hw.toKept, .inr ⟨rfl, hw.page_eq, .inl ?_⟩⟩
      rw [hpage, if_pos hvalid]
      simp
    · next hvalid =>
      obtain ⟨rfl, rfl⟩ := Prod.mk.inj hcall
      refine ⟨hw.toKept.trans (setLeaf_kept hw.tables htab), .inl ⟨rfl, ?_, ?_⟩⟩
      · rw [hpage, if_neg hvalid]
      · rw [setLeaf_page hw.tables htab, hw.page_eq, if_pos pteIsValid_physToPte, pteToPhys_page]

theorem vmmMapPage_spec (hs : s.TableTree k) (hb : s.NoBlocks k R) (hf : s.FreshFrames k)
    (hv : vpn vaddr ∈ R) (hal : pageSize ∣ paddr) (hpos : 0 < paddr) (hlt : paddr < 2 ^ 48)
    (hcall : vmmMapPage k s vaddr paddr flags = (ret, s')) :
    (s'.TableTree k ∧ s'.NoBlocks k R) ∧
      ((ret = 0 ∧ s.page k (vpn vaddr) = none ∧
          s'.page k = Function.update (s.page k) (vpn vaddr) (some paddr)) ∨
        (ret = -1 ∧ s'.page k = s.page k ∧
          (s.page k (vpn vaddr) ≠ none ∨ (s.pmm.takeWhile (· ≠ 0)).length < 3))) := by
  obtain ⟨hkept, hcases⟩ := vmmMapPage_effect hs.tables hf hcall
  have hphys : pteToPhys paddr = paddr := by
    rw [← pteToPhys_page paddr flags]
    exact pteToPhys_physToPte hal hlt (vmFlagsToPte_and_mask flags)
  rw [hphys] at hcases
  have htree : s'.TableTree k := by
    refine hkept.tables.tableTree ?_
    rcases hcases with ⟨-, -, heq⟩ | ⟨-, heq, -⟩
    · intro v p hvp
      rw [heq] at hvp
      by_cases hvv : v = vpn vaddr
      · rw [hvv, Function.update_self] at hvp
        exact Option.some.inj hvp ▸ hpos
      · rw [Function.update_of_ne hvv] at hvp
        exact hs.frame_pos v p hvp
    · rw [heq]
      exact hs.frame_pos
  refine ⟨⟨htree, hkept.noBlocks hb⟩, hcases.imp_right ?_⟩
  rintro ⟨hret, heq, hwhy | hwhy | hwhy⟩
  · exact ⟨hret, heq, .inl hwhy⟩
  · exact ⟨hret, heq, .inr hwhy⟩
  · exact absurd hwhy (noBlocks_iff.mp hb _ hv)

theorem vmmUnmapPage_effect (hs : s.Tables k) (hcall : vmmUnmapPage k s vaddr = (ret, s')) :
    Kept k s s' ∧
      ((ret = 0 ∧ s.page k (vpn vaddr) ≠ none ∧
          s'.page k = Function.update (s.page k) (vpn vaddr) none) ∨
        (ret = -1 ∧ s.page k (vpn vaddr) = none ∧ s' = s)) := by
  unfold vmmUnmapPage at hcall
  rw [walkPageTable_lookup] at hcall
  dsimp only at hcall
  cases htab : s.table k (vpn vaddr).path with
  | none =>
    rw [htab, Option.getD_none, if_pos rfl] at hcall
    obtain ⟨rfl, rfl⟩ := Prod.mk.inj hcall
    exact ⟨.refl hs, .inr ⟨rfl, by rw [page, htab]; rfl, rfl⟩⟩
  | some t =>
    have ht0 := hs.table_pos _ t (le_refl 3) htab
    rw [htab, Option.getD_some, if_neg ht0.ne', pteIndex_eq] at hcall
    have hpage : s.page k (vpn vaddr) =
        if pteIsValid (s.pte t ((vpn vaddr).index 3)) then
          some (pteToPhys (s.pte t ((vpn vaddr).index 3))) else none := by
      rw [page, htab]
      rfl
    cases hvalid : pteIsValid (s.pte t ((vpn vaddr).index 3)) with
    | false =>
      rw [hvalid] at hcall hpage
      obtain ⟨rfl, rfl⟩ := Prod.mk.inj hcall
      exact ⟨.refl hs, .inr ⟨rfl, hpage, rfl⟩⟩
    | true =>
      rw [hvalid] at hcall hpage
      obtain ⟨rfl, rfl⟩ := Prod.mk.inj hcall
      refine ⟨setLeaf_kept hs htab, .inl ⟨rfl, ?_, ?_⟩⟩
      · rw [hpage]
        simp
      · rw [setLeaf_page hs htab]
        rfl

theorem vmmUnmapPage_spec (hs : s.TableTree k) (hb : s.NoBlocks k R)
    (hcall : vmmUnmapPage k s vaddr = (ret, s')) :
    (s'.TableTree k ∧ s'.NoBlocks k R) ∧
      ((ret = 0 ∧ s.page k (vpn vaddr) ≠ none ∧
          s'.page k = Function.update (s.page k) (vpn vaddr) none) ∨
        (ret = -1 ∧ s.page k (vpn vaddr) = none ∧ s' = s)) := by
  obtain ⟨hkept, hcases⟩ := vmmUnmapPage_effect hs.tables hcall
  have htree : s'.TableTree k := by
    refine hkept.tables.tableTree ?_
    rcases hcases with ⟨-, -, heq⟩ | ⟨-, -, rfl⟩
    · intro v p hvp
      rw [heq] at hvp
      by_cases hvv : v = vpn vaddr
      · rw [hvv, Function.update_self] at hvp
        exact absurd hvp (by simp)
      · rw [Function.update_of_ne hvv] at hvp
        exact hs.frame_pos v p hvp
    · exact hs.frame_pos
  exact ⟨⟨htree, hkept.noBlocks hb⟩, hcases⟩

theorem vmmStep_refines (s : Vmm) (c : VmmCall) (s' : Vmm)
    (hs : s.TableTree k ∧ s.NoBlocks k R) (h : VmmStep k R s c s') :
    (s'.TableTree k ∧ s'.NoBlocks k R) ∧ PageMapStep (pageMap k s) c (pageMap k s') := by
  obtain ⟨htree, hb⟩ := hs
  rw [pageMap_eq htree]
  cases h with
  | @mapPage _ vaddr paddr flags frames ret hv hal hpos hlt hf hcall =>
    have htree' : ({ s with pmm := frames } : Vmm).TableTree k := htree.congr rfl rfl
    have hb' : ({ s with pmm := frames } : Vmm).NoBlocks k R := hb.congr rfl
    have hpage : ({ s with pmm := frames } : Vmm).page k = s.page k := page_congr rfl
    obtain ⟨hs', hcases⟩ := vmmMapPage_spec htree' hb' hf hv hal hpos hlt hcall
    rw [pageMap_eq hs'.1]
    rw [hpage] at hcases
    refine ⟨hs', ?_⟩
    rcases hcases with ⟨rfl, hnone, heq⟩ | ⟨rfl, heq, hwhy⟩
    · rw [heq]
      exact .insert hnone
    · rw [heq]
      by_cases hnone : s.page k (vpn vaddr) = none
      · exact .outOfMemory hnone (hwhy.resolve_left (not_not.mpr hnone))
      · exact .occupied hnone
  | unmapPage hv hcall =>
    obtain ⟨hs', hcases⟩ := vmmUnmapPage_spec htree hb hcall
    rw [pageMap_eq hs'.1]
    refine ⟨hs', ?_⟩
    rcases hcases with ⟨rfl, hsome, heq⟩ | ⟨rfl, hnone, rfl⟩
    · rw [heq]
      exact .delete hsome
    · exact .absent hnone

theorem table_of_zero (h : ∀ i, s.pte k.kernelPgd i = 0) {p : List (Fin vmmEntries)} {t : ℕ}
    (ht : s.table k p = some t) : p = [] ∧ t = k.kernelPgd := by
  cases p with
  | nil => exact ⟨rfl, (Option.some.inj ht).symm⟩
  | cons i p =>
    have hchild : s.child k.kernelPgd i = none := by
      rw [Vmm.child, h]
      rfl
    rw [table, resolve, hchild] at ht
    exact absurd ht (by simp)

theorem pgd_ne_earlyTable {i : ℕ} (hi : i < earlyTablesCount) : earlyTable k i ≠ k.kernelPgd := by
  have hoff : (i + 1) * pageSize ≤ earlyTablesCount * pageSize := Nat.mul_le_mul_right _ hi
  have hstep : (i + 1) * pageSize = i * pageSize + pageSize := Nat.succ_mul _ _
  have hsize : 0 < pageSize := by decide
  have happ := k.pgd_apart
  unfold earlyTable
  omega

theorem tableTree_of_zero (h : ∀ i, s.pte k.kernelPgd i = 0) :
    s.TableTree k ∧ s.NoBlocks k Set.univ := by
  refine ⟨⟨?_, ?_, ?_, ?_⟩, ?_⟩
  · intro p q n _ _ hp hq
    rw [(table_of_zero h hp).1, (table_of_zero h hq).1]
  · intro p t _ ht
    rw [(table_of_zero h ht).2]
    exact k.pgd_pos
  · intro i p _ hi _ ht
    exact pgd_ne_earlyTable hi (table_of_zero h ht).2
  · intro v paddr hv
    obtain ⟨t, ht, -⟩ := Option.bind_eq_some_iff.mp hv
    exact absurd (table_of_zero h ht).1 (by simp [Vpn.path])
  · intro v _ p i t _ ht hvalid
    rw [(table_of_zero h ht).2, h] at hvalid
    exact absurd hvalid (by decide)

theorem freshFrames_nil (s : Vmm) : FreshFrames k { s with pmm := [] } :=
  ⟨by simp, by simp, by simp, by simp, List.Pairwise.nil⟩

/-- `va ↦ vmm_virt_to_phys(va)` is a partial map keyed by the page number: every call inserts,
deletes or fails as that map does, and leaves the other pages as they are. -/
theorem vmm_refines_page_map {s₀ : Vmm} {calls : List VmmCall} (htree : s₀.TableTree k)
    (hblocks : s₀.NoBlocks k R) (hrun : Exec (VmmStep k R) s₀ calls s) :
    Exec PageMapStep (pageMap k s₀) calls (pageMap k s) ∧
      ∀ vaddr, vmmVirtToPhys k s vaddr =
        (pageMap k s (vpn vaddr)).elim 0 fun paddr => paddr + vaddr % pageSize := by
  refine ⟨hrun.refine vmmStep_refines ⟨htree, hblocks⟩, ?_⟩
  have hs := hrun.invariant (fun s c t hs h => (vmmStep_refines s c t hs h).1) ⟨htree, hblocks⟩
  intro vaddr
  rw [pageMap_eq hs.1]
  exact vmmVirtToPhys_eq hs.1.tables vaddr

def smallImage : KernelImage where
  kernelPgd := 0x40200000
  earlyTables := 0x40201000
  pgd_pos := by decide
  pgd_aligned := ⟨0x40200, rfl⟩
  early_pos := by decide
  early_aligned := ⟨0x40201, rfl⟩
  early_lt := by decide
  pgd_apart := by decide

def emptyVmm : Vmm := ⟨fun _ => 0, 0, []⟩

theorem emptyVmm_tables : emptyVmm.Tables smallImage ∧ emptyVmm.FreshFrames smallImage :=
  ⟨(tableTree_of_zero fun _ => rfl).1.tables, freshFrames_nil emptyVmm⟩

theorem vmm_refines_page_map_three_calls :
    ∃ s, Exec (VmmStep smallImage Set.univ) ⟨fun _ => 0, 3, []⟩
        [.mapPage 0x5000 0x80000000 0 [0x41000000, 0x41001000] 0,
          .mapPage 0x5000 0x90000000 0 [] (-1), .mapPage 0x8000000000 0x80001000 0 [] (-1)] s ∧
      vmmVirtToPhys smallImage s 0x5123 =
        (pageMap smallImage s (vpn 0x5123)).elim 0 fun paddr => paddr + 0x123 := by
  have hzero : ∀ i, (⟨fun _ => 0, 3, []⟩ : Vmm).pte smallImage.kernelPgd i = 0 := fun _ => rfl
  have hfresh : FreshFrames smallImage ⟨fun _ => 0, 3, [0x41000000, 0x41001000]⟩ := by
    refine ⟨by decide, by decide, ?_, ?_, by decide⟩
    · intro f hf p _ hp
      rw [(table_of_zero (fun _ => rfl) hp).2] at hf
      exact absurd hf (by decide)
    · intro f hf i hle hlt
      obtain rfl : i = 3 := Nat.le_antisymm (Nat.le_of_lt_succ hlt) hle
      rintro rfl
      exact absurd hf (by decide)
  have hsplit : ∀ (x : ℤ × Vmm) (r : ℤ), x.1 = r → x = (r, x.2) := fun x r h => Prod.ext h rfl
  obtain ⟨x, hx⟩ : ∃ x, x = vmmMapPage smallImage ⟨fun _ => 0, 3, [0x41000000, 0x41001000]⟩
      0x5000 0x80000000 0 := ⟨_, rfl⟩
  obtain ⟨y, hy⟩ : ∃ y, y = vmmMapPage smallImage { x.2 with pmm := [] } 0x5000 0x90000000 0 :=
    ⟨_, rfl⟩
  obtain ⟨z, hz⟩ : ∃ z, z = vmmMapPage smallImage { y.2 with pmm := [] } 0x8000000000 0x80001000 0 :=
    ⟨_, rfl⟩
  have hx' : x = (0, x.2) := hsplit x 0 (by rw [hx]; decide +kernel)
  have hy' : y = (-1, y.2) := hsplit y (-1) (by rw [hy, hx]; decide +kernel)
  have hz' : z = (-1, z.2) := hsplit z (-1) (by rw [hz, hy, hx]; decide +kernel)
  have hrun : Exec (VmmStep smallImage Set.univ) ⟨fun _ => 0, 3, []⟩ _ z.2 :=
    .cons (.mapPage trivial ⟨0x80000, rfl⟩ (by decide) (by decide) hfresh (hx.symm.trans hx'))
      (.cons (.mapPage trivial ⟨0x90000, rfl⟩ (by decide) (by decide) (freshFrames_nil _)
          (hy.symm.trans hy'))
        (.cons (.mapPage trivial ⟨0x80001, rfl⟩ (by decide) (by decide) (freshFrames_nil _)
            (hz.symm.trans hz'))
          (.nil _)))
  have h := vmm_refines_page_map (tableTree_of_zero hzero).1 (tableTree_of_zero hzero).2 hrun
  exact ⟨z.2, hrun, h.2 0x5123⟩

end GcAos.Mm
