import GcAos.Mm.Vmm

/-! The page tables as a partial map from page numbers to frames. The tables reached from
`kernel_pgd` stay a tree of distinct frames, so a call that hangs a new table below another one or
writes one level 3 entry is seen by the one page it is about. -/

namespace GcAos.Mm
open Lib

section Words
variable {paddr flags pte : ℕ}

theorem pteIsValid_iff : pteIsValid pte = true ↔ pte % 2 = 1 := by
  have h : pte &&& pteValid = pte % 2 := Nat.and_one_is_mod pte
  rw [pteIsValid, h, bne_iff_ne]
  omega

theorem pteIsTable_iff : pteIsTable pte = true ↔ pte % 4 = 3 := by
  have h : pte &&& (pteValid ||| pteTable) = pte % 4 := Nat.and_two_pow_sub_one_eq_mod pte 2
  rw [pteIsTable, h, beq_iff_eq]
  rfl

theorem pteIsValid_of_isTable (h : pteIsTable pte = true) : pteIsValid pte = true := by
  rw [pteIsTable_iff] at h
  rw [pteIsValid_iff]
  omega

theorem pteToPhys_eq (pte : ℕ) : pteToPhys pte = pte % 2 ^ 48 / 2 ^ 12 * 2 ^ 12 := by
  rw [← and_high_mask (by decide) (Nat.mod_lt pte (by decide)), pteToPhys,
    ← Nat.and_two_pow_sub_one_eq_mod, Nat.and_assoc]
  rfl

theorem pageSize_dvd_pteToPhys (pte : ℕ) : pageSize ∣ pteToPhys pte := by
  rw [pteToPhys_eq]
  exact Nat.dvd_mul_left _ _

theorem pteToPhys_physToPte (hal : pageSize ∣ paddr) (hlt : paddr < 2 ^ 48)
    (hfl : flags &&& pteAddrMask = 0) : pteToPhys (physToPte paddr flags) = paddr := by
  have hself : paddr &&& pteAddrMask = paddr := by
    have hal' : 2 ^ 12 ∣ paddr := hal
    have h := and_high_mask (show 12 ≤ 48 by decide) hlt
    rw [Nat.div_mul_cancel hal'] at h
    exact h
  rw [physToPte, hself, pteToPhys, Nat.and_or_distrib_right, hself, hfl, Nat.or_zero]

theorem physToPte_mod (paddr flags : ℕ) : physToPte paddr flags % 2 ^ 12 = flags % 2 ^ 12 := by
  have hzero : paddr &&& pteAddrMask &&& (2 ^ 12 - 1) = 0 := by
    rw [Nat.and_assoc]
    exact Nat.and_zero paddr
  rw [← Nat.and_two_pow_sub_one_eq_mod, ← Nat.and_two_pow_sub_one_eq_mod, physToPte,
    Nat.and_or_distrib_right, hzero, Nat.zero_or]

theorem vmFlagsToPte_and_mask (flags : ℕ) : vmFlagsToPte flags &&& pteAddrMask = 0 := by
  unfold vmFlagsToPte
  dsimp only
  split_ifs <;> decide

theorem vmFlagsToPte_mod (flags : ℕ) : vmFlagsToPte flags % 2 = 1 := by
  unfold vmFlagsToPte
  dsimp only
  split_ifs <;> decide

theorem pteIsTable_physToPte : pteIsTable (physToPte paddr (pteValid ||| pteTable)) = true := by
  have h := physToPte_mod paddr (pteValid ||| pteTable)
  rw [pteIsTable_iff]
  have hflags : (pteValid ||| pteTable) = 3 := rfl
  rw [hflags] at h ⊢
  omega

theorem pteIsValid_physToPte :
    pteIsValid (physToPte paddr (vmFlagsToPte flags)) = true := by
  have h := physToPte_mod paddr (vmFlagsToPte flags)
  have hflags := vmFlagsToPte_mod flags
  rw [pteIsValid_iff]
  omega

end Words

abbrev Vpn := Fin (2 ^ 36)

def vpn (vaddr : ℕ) : Vpn := ⟨vaddr / pageSize % 2 ^ 36, Nat.mod_lt _ (by decide)⟩

def Vpn.index (v : Vpn) (level : Fin 4) : Fin vmmEntries := pteIndex (v * pageSize) level

/-- The entries a walk reads above the level 3 table. -/
def Vpn.path (v : Vpn) : List (Fin vmmEntries) := [v.index 0, v.index 1, v.index 2]

theorem pteIndex_val (vaddr : ℕ) (level : Fin 4) :
    (pteIndex vaddr level : ℕ) = vaddr / 2 ^ vmmLevelShift level % 512 := by
  rw [← Nat.shiftRight_eq_div_pow]
  exact Nat.and_two_pow_sub_one_eq_mod _ 9

theorem pteIndex_eq (vaddr : ℕ) (level : Fin 4) : pteIndex vaddr level = (vpn vaddr).index level := by
  apply Fin.ext
  rw [Vpn.index, pteIndex_val, pteIndex_val]
  have hv : ((vpn vaddr : Vpn) : ℕ) = vaddr / 4096 % 2 ^ 36 := rfl
  have hp : pageSize = 4096 := rfl
  rw [hv, hp]
  fin_cases level <;> simp [vmmLevelShift] <;> omega

theorem Vpn.ext_index {v w : Vpn} (hpath : v.path = w.path) (h3 : v.index 3 = w.index 3) :
    v = w := by
  have hv := v.isLt
  have hw := w.isLt
  have hp : pageSize = 4096 := rfl
  have hval : ∀ level, v.index level = w.index level →
      v.val * 4096 / 2 ^ vmmLevelShift level % 512 = w.val * 4096 / 2 ^ vmmLevelShift level % 512 := by
    intro level h
    have h' := congrArg Fin.val h
    rwa [Vpn.index, Vpn.index, pteIndex_val, pteIndex_val, hp] at h'
  simp only [Vpn.path, List.cons.injEq, and_true] at hpath
  obtain ⟨h0, h1, h2⟩ := hpath
  have e0 := hval 0 h0
  have e1 := hval 1 h1
  have e2 := hval 2 h2
  have e3 := hval 3 h3
  simp [vmmLevelShift] at e0 e1 e2 e3
  apply Fin.ext
  omega

theorem pteAddr_inj {t u : ℕ} {i j : Fin vmmEntries} (ht : pageSize ∣ t) (hu : pageSize ∣ u)
    (h : pteAddr t i = pteAddr u j) : t = u ∧ i = j := by
  obtain ⟨a, rfl⟩ := ht
  obtain ⟨b, rfl⟩ := hu
  have hp : pageSize = 4096 := rfl
  have hi : i.val < 512 := i.isLt
  have hj : j.val < 512 := j.isLt
  unfold pteAddr at h
  rw [hp] at h ⊢
  exact ⟨by omega, Fin.ext (by omega)⟩

section Clear
variable {mem : ℕ → ℕ} {t a : ℕ}

theorem foldl_clear_of_ne (l : List (Fin vmmEntries)) (h : ∀ i, a ≠ pteAddr t i) :
    l.foldl (fun m i => Function.update m (pteAddr t i) 0) mem a = mem a := by
  induction l generalizing mem with
  | nil => rfl
  | cons i l ih => rw [List.foldl_cons, ih, Function.update_of_ne (h i)]

theorem foldl_clear_zero (l : List (Fin vmmEntries)) (h : mem a = 0) :
    l.foldl (fun m i => Function.update m (pteAddr t i) 0) mem a = 0 := by
  induction l generalizing mem with
  | nil => exact h
  | cons i l ih =>
    apply ih
    show Function.update mem (pteAddr t i) 0 a = 0
    by_cases ha : a = pteAddr t i
    · rw [ha, Function.update_self]
    · rw [Function.update_of_ne ha, h]

theorem clearTable_of_ne (h : ∀ i, a ≠ pteAddr t i) : clearTable mem t a = mem a :=
  foldl_clear_of_ne _ h

theorem clearTable_self (i : Fin vmmEntries) : clearTable mem t (pteAddr t i) = 0 := by
  obtain ⟨l, r, hlr⟩ := List.append_of_mem (List.mem_finRange i)
  rw [clearTable, hlr, List.foldl_append, List.foldl_cons]
  apply foldl_clear_zero
  rw [Function.update_self]

end Clear

namespace Vmm

def child (s : Vmm) (t : ℕ) (i : Fin vmmEntries) : Option ℕ :=
  if pteIsTable (s.pte t i) then some (pteToPhys (s.pte t i)) else none

/-- The table at the end of a path from `kernel_pgd`. -/
def table (k : KernelImage) (s : Vmm) (p : List (Fin vmmEntries)) : Option ℕ :=
  resolve s.child k.kernelPgd p

def page (k : KernelImage) (s : Vmm) (v : Vpn) : Option ℕ :=
  (s.table k v.path).bind fun t =>
    if pteIsValid (s.pte t (v.index 3)) then some (pteToPhys (s.pte t (v.index 3))) else none

/-- The tables are a tree of distinct frames, and no early table still to be handed out is one of
them. -/
structure TableTree (k : KernelImage) (s : Vmm) : Prop where
  sep : Separated s.child k.kernelPgd 3
  table_pos : ∀ p t, p.length ≤ 3 → s.table k p = some t → 0 < t
  early : ∀ i p, s.earlyTableIndex ≤ i → i < earlyTablesCount → p.length ≤ 3 →
    s.table k p ≠ some (earlyTable k i)
  frame_pos : ∀ v paddr, s.page k v = some paddr → 0 < paddr

/-- The same without the promise about the frames that are mapped. -/
structure Tables (k : KernelImage) (s : Vmm) : Prop where
  sep : Separated s.child k.kernelPgd 3
  table_pos : ∀ p t, p.length ≤ 3 → s.table k p = some t → 0 < t
  early : ∀ i p, s.earlyTableIndex ≤ i → i < earlyTablesCount → p.length ≤ 3 →
    s.table k p ≠ some (earlyTable k i)

def block (k : KernelImage) (s : Vmm) (p : List (Fin vmmEntries)) (i : Fin vmmEntries) : Option ℕ :=
  (s.table k p).bind fun t =>
    if pteIsValid (s.pte t i) && !pteIsTable (s.pte t i) then some (s.pte t i) else none

def Blocked (k : KernelImage) (s : Vmm) (v : Vpn) : Prop :=
  ∃ p i, p ++ [i] <+: v.path ∧ s.block k p i ≠ none

/-- No walk to a page of `R` meets a block entry. -/
def NoBlocks (k : KernelImage) (R : Set Vpn) (s : Vmm) : Prop :=
  ∀ v ∈ R, ∀ p i t, p ++ [i] <+: v.path → s.table k p = some t →
    pteIsValid (s.pte t i) = true → pteIsTable (s.pte t i) = true

/-- `pmm_alloc_page` will return page frames that are not tables, each at most once. -/
structure FreshFrames (k : KernelImage) (s : Vmm) : Prop where
  aligned : ∀ f ∈ s.pmm, pageSize ∣ f
  lt : ∀ f ∈ s.pmm, f < 2 ^ 48
  unused : ∀ f ∈ s.pmm, ∀ p, p.length ≤ 3 → s.table k p ≠ some f
  not_early : ∀ f ∈ s.pmm, ∀ i, s.earlyTableIndex ≤ i → i < earlyTablesCount → f ≠ earlyTable k i
  distinct : s.pmm.Pairwise fun f g => f = 0 ∨ f ≠ g

variable {k : KernelImage} {s s₁ : Vmm} {R : Set Vpn} {t n : ℕ} {i : Fin vmmEntries}
  {pre p : List (Fin vmmEntries)}

theorem child_eq_some (h : s.child t i = some n) :
    pteIsTable (s.pte t i) = true ∧ pteToPhys (s.pte t i) = n := by
  unfold child at h
  split at h
  · exact ⟨‹_›, Option.some.inj h⟩
  · exact absurd h (by simp)

theorem table_snoc (p : List (Fin vmmEntries)) (i : Fin vmmEntries) :
    s.table k (p ++ [i]) = (s.table k p).bind fun t => s.child t i :=
  resolve_snoc _ _ _

theorem table_aligned (h : s.table k p = some t) : pageSize ∣ t := by
  induction p using List.reverseRecOn with
  | nil =>
    obtain rfl := Option.some.inj h
    exact k.pgd_aligned
  | append_singleton p i _ =>
    rw [table_snoc] at h
    obtain ⟨u, _, hu⟩ := Option.bind_eq_some_iff.mp h
    rw [← (child_eq_some hu).2]
    exact pageSize_dvd_pteToPhys _

theorem table_congr (hmem : s₁.mem = s.mem) : s₁.table k = s.table k := by
  unfold table child pte
  rw [hmem]

theorem page_congr (hmem : s₁.mem = s.mem) : s₁.page k = s.page k := by
  unfold page pte
  rw [table_congr hmem, hmem]

theorem block_congr (hmem : s₁.mem = s.mem) : s₁.block k = s.block k := by
  unfold block pte
  rw [table_congr hmem, hmem]

theorem TableTree.tables (hs : s.TableTree k) : s.Tables k := ⟨hs.sep, hs.table_pos, hs.early⟩

theorem Tables.tableTree (hs : s.Tables k) (hpos : ∀ v paddr, s.page k v = some paddr → 0 < paddr) :
    s.TableTree k := ⟨hs.sep, hs.table_pos, hs.early, hpos⟩

theorem Tables.congr (hs : s.Tables k) (hmem : s₁.mem = s.mem)
    (hidx : s₁.earlyTableIndex = s.earlyTableIndex) : s₁.Tables k := by
  have htable : s₁.table k = s.table k := table_congr hmem
  refine ⟨?_, ?_, ?_⟩
  · have hchild : s₁.child = s.child := by
      unfold child pte
      rw [hmem]
    rw [hchild]
    exact hs.sep
  · rw [htable]
    exact hs.table_pos
  · rw [htable, hidx]
    exact hs.early

theorem TableTree.congr (hs : s.TableTree k) (hmem : s₁.mem = s.mem)
    (hidx : s₁.earlyTableIndex = s.earlyTableIndex) : s₁.TableTree k := by
  refine (hs.tables.congr hmem hidx).tableTree ?_
  rw [page_congr hmem]
  exact hs.frame_pos

theorem NoBlocks.congr (hb : s.NoBlocks k R) (hmem : s₁.mem = s.mem) : s₁.NoBlocks k R := by
  unfold NoBlocks pte
  rw [table_congr hmem, hmem]
  exact hb

theorem FreshFrames.congr (hf : s.FreshFrames k) (hmem : s₁.mem = s.mem)
    (hidx : s₁.earlyTableIndex = s.earlyTableIndex) (hsub : s₁.pmm.Sublist s.pmm) :
    s₁.FreshFrames k where
  aligned := fun f hf' => hf.aligned f (hsub.subset hf')
  lt := fun f hf' => hf.lt f (hsub.subset hf')
  unused := by
    rw [table_congr hmem]
    exact fun f hf' => hf.unused f (hsub.subset hf')
  not_early := by
    rw [hidx]
    exact fun f hf' => hf.not_early f (hsub.subset hf')
  distinct := hf.distinct.sublist hsub

theorem block_eq_some {e : ℕ} (h : s.block k p i = some e) :
    ∃ t, s.table k p = some t ∧ s.pte t i = e ∧ pteIsValid e = true ∧ pteIsTable e = false := by
  obtain ⟨t, ht, he⟩ := Option.bind_eq_some_iff.mp h
  split at he
  · next hvalid =>
    obtain rfl := Option.some.inj he
    rw [Bool.and_eq_true, Bool.not_eq_true'] at hvalid
    exact ⟨t, ht, rfl, hvalid.1, hvalid.2⟩
  · exact absurd he (by simp)

theorem block_ne_none (ht : s.table k p = some t) (hvalid : pteIsValid (s.pte t i) = true)
    (htab : pteIsTable (s.pte t i) = false) : s.block k p i = some (s.pte t i) := by
  rw [block, ht, Option.bind_some, if_pos]
  rw [hvalid, htab]
  rfl

theorem noBlocks_iff : s.NoBlocks k R ↔ ∀ v ∈ R, ¬ s.Blocked k v := by
  constructor
  · rintro hb v hv ⟨p, i, hpi, hblock⟩
    obtain ⟨e, he⟩ := Option.ne_none_iff_exists'.mp hblock
    obtain ⟨t, ht, rfl, hvalid, htab⟩ := block_eq_some he
    rw [hb v hv p i t hpi ht hvalid] at htab
    exact absurd htab (by decide)
  · intro hb v hv p i t hpi ht hvalid
    by_contra htab
    rw [Bool.not_eq_true] at htab
    refine hb v hv ⟨p, i, hpi, ?_⟩
    rw [block_ne_none ht hvalid htab]
    simp

theorem earlyTable_inj {i j : ℕ} (h : earlyTable k i = earlyTable k j) : i = j := by
  unfold earlyTable at h
  exact Nat.eq_of_mul_eq_mul_right (show 0 < pageSize by decide) (Nat.add_left_cancel h)

/-- What `alloc_page_table` does when it returns a table. -/
structure Allocates (k : KernelImage) (s : Vmm) (n : ℕ) (s₁ : Vmm) : Prop where
  pos : 0 < n
  aligned : pageSize ∣ n
  lt : n < 2 ^ 48
  unused : ∀ p, p.length ≤ 3 → s.table k p ≠ some n
  mem_eq : s₁.mem = clearTable s.mem n
  index_le : s.earlyTableIndex ≤ s₁.earlyTableIndex
  early_ne : ∀ i, s₁.earlyTableIndex ≤ i → i < earlyTablesCount → n ≠ earlyTable k i
  pmm_sub : s₁.pmm.Sublist s.pmm
  pmm_ne : ∀ f ∈ s₁.pmm, f ≠ n
  supply : (s.pmm.takeWhile (· ≠ 0)).length ≤ (s₁.pmm.takeWhile (· ≠ 0)).length + 1

theorem allocPageTable_early (hs : s.Tables k) (hf : s.FreshFrames k)
    (hi : s.earlyTableIndex < earlyTablesCount) :
    s.Allocates k (allocPageTable k s).1 (allocPageTable k s).2 := by
  have hoff : (s.earlyTableIndex + 1) * pageSize ≤ earlyTablesCount * pageSize :=
    Nat.mul_le_mul_right pageSize hi
  have hstep : (s.earlyTableIndex + 1) * pageSize = s.earlyTableIndex * pageSize + pageSize :=
    Nat.succ_mul _ _
  have hsize : 0 < pageSize := by decide
  have hlt := k.early_lt
  have hpos := k.early_pos
  unfold allocPageTable
  rw [if_pos hi]
  exact {
    pos := by
      show 0 < k.earlyTables + s.earlyTableIndex * pageSize
      omega
    aligned := Nat.dvd_add k.early_aligned (Nat.dvd_mul_left _ _)
    lt := by
      show k.earlyTables + s.earlyTableIndex * pageSize < 2 ^ 48
      omega
    unused := fun p hp => hs.early _ p le_rfl hi hp
    mem_eq := by dsimp only
    index_le := Nat.le_succ _
    early_ne := fun i hle _ heq => absurd (earlyTable_inj heq) (Nat.ne_of_lt hle)
    pmm_sub := List.Sublist.refl _
    pmm_ne := fun f hmem => hf.not_early f hmem _ le_rfl hi
    supply := Nat.le_succ _ }

theorem allocPageTable_pmm (hf : s.FreshFrames k) (hi : ¬ s.earlyTableIndex < earlyTablesCount)
    {f : ℕ} {fs : List ℕ} (hpmm : s.pmm = f :: fs) (hf0 : f ≠ 0) :
    s.Allocates k (allocPageTable k s).1 (allocPageTable k s).2 := by
  have hmem : f ∈ s.pmm := by rw [hpmm]; exact List.mem_cons_self
  have hdist := hf.distinct
  rw [hpmm, List.pairwise_cons] at hdist
  unfold allocPageTable pmmAllocPage
  rw [if_neg hi, hpmm]
  dsimp only [List.headD_cons, List.tail_cons]
  rw [if_neg hf0]
  exact {
    pos := Nat.pos_of_ne_zero hf0
    aligned := hf.aligned f hmem
    lt := hf.lt f hmem
    unused := hf.unused f hmem
    mem_eq := by dsimp only
    index_le := le_rfl
    early_ne := fun i hle hlt => absurd (Nat.lt_of_le_of_lt hle hlt) hi
    pmm_sub := by rw [hpmm]; exact List.sublist_cons_self _ _
    pmm_ne := by
      intro g hg hgf
      rcases hdist.1 g hg with h | h
      · exact hf0 h
      · exact h hgf.symm
    supply := by rw [hpmm, List.takeWhile_cons_of_pos (by simpa using hf0)]; rfl }

theorem allocPageTable_cases (hs : s.Tables k) (hf : s.FreshFrames k) :
    s.Allocates k (allocPageTable k s).1 (allocPageTable k s).2 ∨
      ((allocPageTable k s).1 = 0 ∧ (allocPageTable k s).2.mem = s.mem ∧
        (allocPageTable k s).2.earlyTableIndex = s.earlyTableIndex ∧
        (allocPageTable k s).2.pmm.Sublist s.pmm ∧ s.pmm.takeWhile (· ≠ 0) = []) := by
  by_cases hi : s.earlyTableIndex < earlyTablesCount
  · exact .inl (allocPageTable_early hs hf hi)
  · cases hpmm : s.pmm with
    | nil => right; simp [allocPageTable, pmmAllocPage, hi, hpmm]
    | cons f fs =>
      by_cases hf0 : f = 0
      · right; simp [allocPageTable, pmmAllocPage, hi, hpmm, hf0]
      · exact .inl (allocPageTable_pmm hf hi hpmm hf0)

/-- The new table `n` is entered into `t[i]`. -/
def install (s₁ : Vmm) (t : ℕ) (i : Fin vmmEntries) (n : ℕ) : Vmm :=
  s₁.setPte t i (physToPte n (pteValid ||| pteTable))

theorem install_pte_self : (install s₁ t i n).pte t i = physToPte n (pteValid ||| pteTable) :=
  Function.update_self _ _ _

section Install
variable (hs : s.Tables k) (ha : s.Allocates k n s₁) (hpre : s.table k pre = some t)
  (hlen : pre.length < 3) (hval : pteIsValid (s.pte t i) = false)
include ha hpre

theorem install_pte_of_ne {m : ℕ} {j : Fin vmmEntries} (hm : pageSize ∣ m) (hmn : m ≠ n)
    (hne : m ≠ t ∨ j ≠ i) : (install s₁ t i n).pte m j = s.pte m j := by
  have hti : pteAddr m j ≠ pteAddr t i := by
    intro h
    obtain ⟨h1, h2⟩ := pteAddr_inj hm (table_aligned hpre) h
    rcases hne with h' | h'
    · exact h' h1
    · exact h' h2
  show Function.update s₁.mem _ _ (pteAddr m j) = s.mem (pteAddr m j)
  rw [Function.update_of_ne hti, ha.mem_eq]
  exact clearTable_of_ne fun j' h => hmn (pteAddr_inj hm ha.aligned h).1

theorem install_pte_old {q : List (Fin vmmEntries)} {m : ℕ} {j : Fin vmmEntries}
    (hq : q.length ≤ 3) (hm : s.table k q = some m) (hne : m ≠ t ∨ j ≠ i) :
    (install s₁ t i n).pte m j = s.pte m j := by
  refine install_pte_of_ne ha hpre (table_aligned hm) ?_ hne
  intro h
  exact ha.unused q hq (h ▸ hm)

include hlen

theorem install_pte_new (j : Fin vmmEntries) : (install s₁ t i n).pte n j = 0 := by
  have hti : pteAddr n j ≠ pteAddr t i := by
    intro h
    obtain ⟨h1, -⟩ := pteAddr_inj ha.aligned (table_aligned hpre) h
    exact ha.unused pre hlen.le (h1 ▸ hpre)
  show Function.update s₁.mem _ _ (pteAddr n j) = 0
  rw [Function.update_of_ne hti, ha.mem_eq, clearTable_self]

include hval

theorem install_graft :
    Graft s.child (install s₁ t i n).child k.kernelPgd 3 pre t i n where
  at_pre := hpre
  depth := hlen
  vacant := by
    have htab : ¬ pteIsTable (s.pte t i) = true := by
      intro h
      rw [pteIsValid_of_isTable h] at hval
      exact absurd hval (by decide)
    rw [child, if_neg htab]
  fresh := ha.unused
  new := by
    have hmask : (pteValid ||| pteTable) &&& pteAddrMask = 0 := by decide
    rw [child, install_pte_self, if_pos pteIsTable_physToPte,
      pteToPhys_physToPte ha.aligned ha.lt hmask]
  empty := by
    intro j
    rw [child, install_pte_new ha hpre hlen]
    rfl
  old := by
    intro q m j hq hm hne
    rw [child, child, install_pte_old ha hpre hq.le hm hne]

include hs

theorem install_page : (install s₁ t i n).page k = s.page k := by
  have hg := install_graft ha hpre hlen hval
  funext v
  have hv : v.path.length = 3 := rfl
  have htab := hg.resolve_eq hs.sep hv.le
  unfold page table
  rw [htab]
  split
  · next hpath =>
    have hnone : resolve s.child k.kernelPgd v.path = none := by
      rw [hpath, resolve_snoc, hg.at_pre]
      exact hg.vacant
    rw [hnone, Option.bind_some, install_pte_new ha hpre hlen]
    rfl
  · cases hm : resolve s.child k.kernelPgd v.path with
    | none => rfl
    | some m =>
      have hmt : m ≠ t := by
        rintro rfl
        have := congrArg List.length (hs.sep v.path pre m hv.le hlen.le hm hpre)
        omega
      rw [Option.bind_some, Option.bind_some, install_pte_old ha hpre hv.le hm (.inl hmt)]

theorem install_tables : (install s₁ t i n).Tables k := by
  have hg := install_graft ha hpre hlen hval
  refine ⟨hg.separated hs.sep, ?_, ?_⟩
  · intro p m hp hm
    rcases hg.cases hs.sep hp hm with ⟨-, rfl⟩ | ⟨-, hm⟩
    · exact ha.pos
    · exact hs.table_pos p m hp hm
  · intro j p hj hlt hp hm
    rcases hg.cases hs.sep hp hm with ⟨-, h⟩ | ⟨-, hm⟩
    · exact ha.early_ne j hj hlt h.symm
    · exact hs.early j p (ha.index_le.trans hj) hlt hp hm

theorem install_freshFrames (hf : s.FreshFrames k) : (install s₁ t i n).FreshFrames k := by
  have hg := install_graft ha hpre hlen hval
  have hsub : ∀ f ∈ s₁.pmm, f ∈ s.pmm := fun f hfm => ha.pmm_sub.subset hfm
  refine ⟨?_, ?_, ?_, ?_, ?_⟩
  · exact fun f hfm => hf.aligned f (hsub f hfm)
  · exact fun f hfm => hf.lt f (hsub f hfm)
  · intro f hfm p hp hm
    rcases hg.cases hs.sep hp hm with ⟨-, h⟩ | ⟨-, hm⟩
    · exact ha.pmm_ne f hfm h
    · exact hf.unused f (hsub f hfm) p hp hm
  · exact fun f hfm j hj hlt => hf.not_early f (hsub f hfm) j (ha.index_le.trans hj) hlt
  · exact hf.distinct.sublist ha.pmm_sub

theorem install_block {q : List (Fin vmmEntries)} (hq : q.length ≤ 3) (j : Fin vmmEntries) :
    (install s₁ t i n).block k q j = s.block k q j := by
  have hg := install_graft ha hpre hlen hval
  unfold block table
  rw [hg.resolve_eq hs.sep hq]
  split
  · next hpath =>
    have hnone : resolve s.child k.kernelPgd q = none := by
      rw [hpath, resolve_snoc, hg.at_pre]
      exact hg.vacant
    rw [hnone, Option.bind_some, install_pte_new ha hpre hlen]
    rfl
  · cases hm : resolve s.child k.kernelPgd q with
    | none => rfl
    | some m =>
      rw [Option.bind_some, Option.bind_some]
      by_cases hedge : m = t ∧ j = i
      · obtain ⟨rfl, rfl⟩ := hedge
        rw [install_pte_self, pteIsTable_physToPte, hval]
        simp
      · rw [install_pte_old ha hpre hq hm (not_and_or.mp hedge)]

end Install

theorem walkLevels_lookup (vaddr : ℕ) (levels : List (Fin 4)) (t : ℕ) (s : Vmm) :
    walkLevels k vaddr false levels t s =
      ((resolve s.child t (levels.map (pteIndex vaddr))).getD 0, s) := by
  induction levels generalizing t with
  | nil => rfl
  | cons level levels ih =>
    simp only [walkLevels, List.map_cons, resolve, child]
    by_cases htab : pteIsTable (s.pte t (pteIndex vaddr level)) = true
    · simp [htab, pteIsValid_of_isTable htab, ih]
    · simp [htab]

theorem walkPageTable_lookup (s : Vmm) (vaddr : ℕ) :
    walkPageTable k s k.kernelPgd vaddr false = ((s.table k (vpn vaddr).path).getD 0, s) := by
  rw [walkPageTable, walkLevels_lookup]
  simp only [List.map_cons, List.map_nil, pteIndex_eq]
  rfl

/-- The tables stay a tree, and no block entry comes or goes. -/
structure Kept (k : KernelImage) (s s' : Vmm) : Prop where
  tables : s'.Tables k
  fresh : s.FreshFrames k → s'.FreshFrames k
  block_eq : ∀ p i, p.length < 3 → s'.block k p i = s.block k p i

theorem Kept.refl (hs : s.Tables k) : Kept k s s := ⟨hs, id, fun _ _ _ => rfl⟩

theorem Kept.trans {s₂ : Vmm} (h : Kept k s s₁) (h' : Kept k s₁ s₂) : Kept k s s₂ :=
  ⟨h'.tables, h'.fresh ∘ h.fresh, fun p i hp => (h'.block_eq p i hp).trans (h.block_eq p i hp)⟩

theorem Kept.blocked_iff (h : Kept k s s₁) {v : Vpn} : s₁.Blocked k v ↔ s.Blocked k v := by
  unfold Blocked
  refine exists_congr fun p => exists_congr fun i => and_congr_right fun hpi => ?_
  have hlen := hpi.length_le
  have h3 : v.path.length = 3 := rfl
  rw [List.length_append, List.length_singleton, h3] at hlen
  rw [h.block_eq p i (by omega)]

theorem Kept.noBlocks (h : Kept k s s₁) (hb : s.NoBlocks k R) : s₁.NoBlocks k R := by
  rw [noBlocks_iff] at hb ⊢
  exact fun v hv => h.blocked_iff.not.mpr (hb v hv)

/-- What a walk that may allocate has done when it returns `r`. -/
structure Walked (k : KernelImage) (s : Vmm) (v : Vpn) (levels : ℕ) (r : ℕ) (s' : Vmm) : Prop
    extends Kept k s s' where
  page_eq : s'.page k = s.page k
  result : (r = 0 ∧ ((s.pmm.takeWhile (· ≠ 0)).length < levels ∨ s.Blocked k v)) ∨
    s'.table k v.path = some r

theorem walkLevels_alloc (vaddr : ℕ) (levels : List (Fin 4)) (hs : s.Tables k) (hf : s.FreshFrames k)
    (hpre : s.table k pre = some t) (hpath : pre ++ levels.map (pteIndex vaddr) = (vpn vaddr).path) :
    Walked k s (vpn vaddr) levels.length (walkLevels k vaddr true levels t s).1
      (walkLevels k vaddr true levels t s).2 := by
  induction levels generalizing pre t s with
  | nil =>
    rw [List.map_nil, List.append_nil] at hpath
    exact ⟨.refl hs, rfl, .inr (hpath ▸ hpre)⟩
  | cons level levels ih =>
    have hlen : pre.length < 3 := by
      have h := congrArg List.length hpath
      have h3 : (vpn vaddr).path.length = 3 := rfl
      rw [List.length_append, List.length_map, List.length_cons, h3] at h
      omega
    have hpath' : (pre ++ [pteIndex vaddr level]) ++ levels.map (pteIndex vaddr) =
        (vpn vaddr).path := by rw [← hpath, List.append_assoc]; rfl
    obtain ⟨i, hi⟩ : ∃ i, i = pteIndex vaddr level := ⟨_, rfl⟩
    rw [← hi] at hpath'
    unfold walkLevels
    rw [← hi]
    dsimp only
    cases hval : pteIsValid (s.pte t i) with
    | false =>
      rcases allocPageTable_cases hs hf with ha | ⟨h0, hmem, hidx, hsub, hsup⟩
      · -- a new table is hung below `t`, and the walk goes on in it
        have hgraft := install_graft ha hpre hlen hval
        have hkept : Kept k s (install (allocPageTable k s).2 t i (allocPageTable k s).1) :=
          ⟨install_tables hs ha hpre hlen hval, install_freshFrames hs ha hpre hlen hval,
            fun _ j hq => install_block hs ha hpre hlen hval hq.le j⟩
        have hw := ih hkept.tables (hkept.fresh hf) (hgraft.resolve_new hs.sep) hpath'
        simp only [Bool.not_false, if_true, Bool.not_true, Bool.false_eq_true, if_false,
          if_neg ha.pos.ne']
        refine ⟨hkept.trans hw.toKept, ?_, ?_⟩
        · exact hw.page_eq.trans (install_page hs ha hpre hlen hval)
        · rcases hw.result with ⟨hr, hlt | hblocked⟩ | hr
          · have hsupply := ha.supply
            have hlt' : ((allocPageTable k s).2.pmm.takeWhile (· ≠ 0)).length < levels.length := hlt
            exact .inl ⟨hr, .inl (by rw [List.length_cons]; omega)⟩
          · exact .inl ⟨hr, .inr (hkept.blocked_iff.mp hblocked)⟩
          · exact .inr hr
      · simp only [Bool.not_false, if_true, Bool.not_true, Bool.false_eq_true, if_false, h0]
        refine ⟨⟨hs.congr hmem hidx, fun hf => hf.congr hmem hidx hsub, fun p j _ => ?_⟩,
          page_congr hmem,
          .inl ⟨rfl, .inl ?_⟩⟩
        · rw [block_congr hmem]
        · rw [hsup]
          exact Nat.succ_pos _
    | true =>
      cases htab : pteIsTable (s.pte t i) with
      | false =>
        simp only [Bool.not_true, Bool.false_eq_true, if_false]
        refine ⟨.refl hs, rfl, .inl ⟨rfl, .inr ⟨pre, i, ⟨levels.map (pteIndex vaddr), hpath'⟩, ?_⟩⟩⟩
        rw [block_ne_none hpre hval htab]
        simp
      | true =>
        have hnext : s.table k (pre ++ [i]) = some (pteToPhys (s.pte t i)) := by
          rw [table_snoc, hpre, Option.bind_some, child, if_pos htab]
        have hw := ih hs hf hnext hpath'
        simp only [Bool.not_true, Bool.false_eq_true, if_false, if_true]
        refine ⟨hw.toKept, hw.page_eq, ?_⟩
        rcases hw.result with ⟨hr, hlt | hblocked⟩ | hr
        · exact .inl ⟨hr, .inl (by rw [List.length_cons]; omega)⟩
        · exact .inl ⟨hr, .inr hblocked⟩
        · exact .inr hr

theorem walkPageTable_alloc (vaddr : ℕ) (hs : s.Tables k) (hf : s.FreshFrames k) :
    Walked k s (vpn vaddr) 3 (walkPageTable k s k.kernelPgd vaddr true).1
      (walkPageTable k s k.kernelPgd vaddr true).2 := by
  have hroot : s.table k [] = some k.kernelPgd := rfl
  refine walkLevels_alloc vaddr [0, 1, 2] hs hf hroot ?_
  simp only [List.map_cons, List.map_nil, List.nil_append, pteIndex_eq]
  rfl

section Leaf
variable {v : Vpn} {e : ℕ} (hs : s.Tables k) (ht : s.table k v.path = some t)
include hs ht

theorem setLeaf_child {q : List (Fin vmmEntries)} {m : ℕ} (j : Fin vmmEntries) (hq : q.length < 3)
    (hm : s.table k q = some m) : (s.setPte t (v.index 3) e).pte m j = s.pte m j := by
  apply Function.update_of_ne
  intro h
  obtain ⟨rfl, -⟩ := pteAddr_inj (table_aligned hm) (table_aligned ht) h
  have := congrArg List.length (hs.sep q v.path m hq.le (le_refl 3) hm ht)
  have h3 : v.path.length = 3 := rfl
  omega

theorem setLeaf_table {p : List (Fin vmmEntries)} (hp : p.length ≤ 3) :
    (s.setPte t (v.index 3) e).table k p = s.table k p := by
  refine resolve_congr ?_ hp
  intro q m j hq hm
  rw [child, child, setLeaf_child hs ht j hq hm]

theorem setLeaf_page : (s.setPte t (v.index 3) e).page k =
    Function.update (s.page k) v (if pteIsValid e then some (pteToPhys e) else none) := by
  funext w
  have hw : w.path.length ≤ 3 := le_refl 3
  unfold page
  rw [setLeaf_table hs ht hw]
  by_cases hwv : w = v
  · have hself : (s.setPte t (v.index 3) e).pte t (v.index 3) = e := Function.update_self _ _ _
    rw [hwv, Function.update_self, ht, Option.bind_some, hself]
  · rw [Function.update_of_ne hwv]
    cases hm : s.table k w.path with
    | none => rfl
    | some m =>
      have hpte : (s.setPte t (v.index 3) e).pte m (w.index 3) = s.pte m (w.index 3) := by
        apply Function.update_of_ne
        intro h
        obtain ⟨rfl, h3⟩ := pteAddr_inj (table_aligned hm) (table_aligned ht) h
        exact hwv (Vpn.ext_index (hs.sep _ _ m hw (le_refl 3) hm ht) h3)
      rw [Option.bind_some, Option.bind_some, hpte]

theorem setLeaf_tables : (s.setPte t (v.index 3) e).Tables k := by
  refine ⟨?_, ?_, ?_⟩
  · refine hs.sep.congr ?_
    intro q m j hq hm
    rw [child, child, setLeaf_child hs ht j hq hm]
  · intro p m hp hm
    rw [setLeaf_table hs ht hp] at hm
    exact hs.table_pos p m hp hm
  · intro j p hj hlt hp
    rw [setLeaf_table hs ht hp]
    exact hs.early j p hj hlt hp

theorem setLeaf_block {q : List (Fin vmmEntries)} (hq : q.length < 3) (j : Fin vmmEntries) :
    (s.setPte t (v.index 3) e).block k q j = s.block k q j := by
  unfold block
  rw [setLeaf_table hs ht hq.le]
  cases hm : s.table k q with
  | none => rfl
  | some m => rw [Option.bind_some, Option.bind_some, setLeaf_child hs ht j hq hm]

theorem setLeaf_freshFrames (hf : s.FreshFrames k) : (s.setPte t (v.index 3) e).FreshFrames k where
  aligned := hf.aligned
  lt := hf.lt
  unused := by
    intro f hmem p hp
    rw [setLeaf_table hs ht hp]
    exact hf.unused f hmem p hp
  not_early := hf.not_early
  distinct := hf.distinct

theorem setLeaf_kept : Kept k s (s.setPte t (v.index 3) e) :=
  ⟨setLeaf_tables hs ht, setLeaf_freshFrames hs ht, fun _ j hq => setLeaf_block hs ht hq j⟩

end Leaf

theorem vmmVirtToPhys_eq (hs : s.Tables k) (vaddr : ℕ) :
    vmmVirtToPhys k s vaddr =
      (s.page k (vpn vaddr)).elim 0 fun paddr => paddr + vaddr % pageSize := by
  have h3 : (vpn vaddr).path.length ≤ 3 := le_refl 3
  unfold vmmVirtToPhys page
  rw [walkPageTable_lookup]
  dsimp only
  cases ht : s.table k (vpn vaddr).path with
  | none => rfl
  | some t =>
    have hpos := hs.table_pos _ t h3 ht
    rw [Option.getD_some, if_neg hpos.ne', Option.bind_some, pteIndex_eq]
    cases hval : pteIsValid (s.pte t ((vpn vaddr).index 3)) with
    | false => rfl
    | true =>
      have hoff : vaddr &&& (pageSize - 1) = vaddr % pageSize :=
        Nat.and_two_pow_sub_one_eq_mod vaddr 12
      obtain ⟨a, ha⟩ := pageSize_dvd_pteToPhys (s.pte t ((vpn vaddr).index 3))
      have hlt : vaddr % pageSize < 2 ^ 12 := Nat.mod_lt _ (by decide)
      simp only [Bool.not_true, Bool.false_eq_true, if_false, if_true, Option.elim_some, hoff, ha]
      exact (Nat.two_pow_add_eq_or_of_lt hlt a).symm

end Vmm

end GcAos.Mm
