import GcAos.Mm.VmmRun
import GcAos.Mm.VmmUser

/-! Address spaces do not see each other. -/

namespace GcAos.Mm
open Lib

section Words

variable {paddr flags : ℕ}

theorem userPteFlags_and_mask (flags : ℕ) : userPteFlags flags &&& pteAddrMask = 0 := by
  unfold userPteFlags
  dsimp only
  split_ifs <;> decide

theorem userPteFlags_mod (flags : ℕ) : userPteFlags flags % 2 = 1 := by
  unfold userPteFlags
  dsimp only
  split_ifs <;> decide

theorem pteIsValid_userPage : pteIsValid (physToPte paddr (userPteFlags flags)) = true := by
  have hmod := physToPte_mod paddr (userPteFlags flags)
  have hflags := userPteFlags_mod flags
  rw [pteIsValid_iff]
  omega

theorem pteToPhys_userPage : pteToPhys (physToPte paddr (userPteFlags flags)) = pteToPhys paddr := by
  unfold pteToPhys physToPte
  rw [Nat.and_or_distrib_right, userPteFlags_and_mask, Nat.or_zero, Nat.and_assoc, Nat.and_self]

theorem pteIndex_lt_of_user {vaddr : ℕ} (h : vaddr < userVmaEnd) :
    (pteIndex vaddr 0).val < vmmEntries / 2 := by
  have hend : userVmaEnd = 2 ^ 47 := rfl
  have hhalf : vmmEntries / 2 = 256 := rfl
  have hshift : vmmLevelShift 0 = 39 := rfl
  rw [pteIndex_val, hshift, hhalf]
  omega

end Words

section Copy

variable {mem : ℕ → ℕ} {source pgd a : ℕ} {i : Fin vmmEntries}

theorem foldl_copy_of_ne (l : List (Fin vmmEntries)) (h : ∀ i ∈ l, a ≠ pteAddr pgd i) :
    l.foldl (fun m i => Function.update m (pteAddr pgd i) (m (pteAddr source i))) mem a = mem a := by
  induction l generalizing mem with
  | nil => rfl
  | cons i l ih =>
    rw [List.foldl_cons, ih fun j hj => h j (List.mem_cons_of_mem _ hj),
      Function.update_of_ne (h i List.mem_cons_self)]

theorem foldl_copy (l : List (Fin vmmEntries)) (hs : pageSize ∣ source) (hp : pageSize ∣ pgd)
    (hne : source ≠ pgd) (hi : i ∈ l) :
    l.foldl (fun m i => Function.update m (pteAddr pgd i) (m (pteAddr source i))) mem (pteAddr pgd i) =
      mem (pteAddr source i) := by
  induction l generalizing mem with
  | nil => exact absurd hi List.not_mem_nil
  | cons j l ih =>
    rw [List.foldl_cons]
    by_cases hmem : i ∈ l
    · rw [ih hmem, Function.update_of_ne]
      exact fun heq => hne (pteAddr_inj hs hp heq).1
    · obtain rfl := (List.mem_cons.mp hi).resolve_right hmem
      rw [foldl_copy_of_ne, Function.update_self]
      intro j hj heq
      exact hmem ((pteAddr_inj hp hp heq).2 ▸ hj)

theorem copyUpper_of_ne (h : ∀ i, a ≠ pteAddr pgd i) : copyUpper mem source pgd a = mem a :=
  foldl_copy_of_ne _ fun i _ => h i

theorem copyUpper_lower (hp : pageSize ∣ pgd) (hi : ¬vmmEntries / 2 ≤ i.val) :
    copyUpper mem source pgd (pteAddr pgd i) = mem (pteAddr pgd i) := by
  apply foldl_copy_of_ne
  intro j hj heq
  rw [← (pteAddr_inj hp hp heq).2, List.mem_filter] at hj
  exact hi (of_decide_eq_true hj.2)

theorem copyUpper_upper (hs : pageSize ∣ source) (hp : pageSize ∣ pgd) (hne : source ≠ pgd)
    (hi : vmmEntries / 2 ≤ i.val) :
    copyUpper mem source pgd (pteAddr pgd i) = mem (pteAddr source i) := by
  apply foldl_copy _ hs hp hne
  exact List.mem_filter.mpr ⟨List.mem_finRange i, decide_eq_true hi⟩

end Copy

namespace Vmm

variable {k : KernelImage} {s s₁ : Vmm} {n : ℕ}

/-- `alloc_page_table` can still return this frame. -/
def Free (k : KernelImage) (s : Vmm) (n : ℕ) : Prop :=
  n ≠ 0 ∧ (n ∈ s.pmm ∨ ∃ i, s.earlyTableIndex ≤ i ∧ i < earlyTablesCount ∧ n = earlyTable k i)

/-- The page allocator returns page frames, each at most once, and no early table. -/
structure Supply (k : KernelImage) (s : Vmm) : Prop where
  aligned : ∀ f ∈ s.pmm, pageSize ∣ f
  lt : ∀ f ∈ s.pmm, f < 2 ^ 48
  not_early : ∀ f ∈ s.pmm, ∀ i, s.earlyTableIndex ≤ i → i < earlyTablesCount → f ≠ earlyTable k i
  distinct : s.pmm.Pairwise fun f g => f = 0 ∨ f ≠ g

theorem Supply.free_aligned (hs : s.Supply k) (hn : s.Free k n) : pageSize ∣ n := by
  rcases hn.2 with hmem | ⟨i, -, -, rfl⟩
  · exact hs.aligned n hmem
  · exact Nat.dvd_add k.early_aligned (Nat.dvd_mul_left _ _)

theorem Supply.free_lt (hs : s.Supply k) (hn : s.Free k n) : n < 2 ^ 48 := by
  rcases hn.2 with hmem | ⟨i, -, hi, rfl⟩
  · exact hs.lt n hmem
  · have hoff : (i + 1) * pageSize ≤ earlyTablesCount * pageSize := Nat.mul_le_mul_right pageSize hi
    have hstep : (i + 1) * pageSize = i * pageSize + pageSize := Nat.succ_mul _ _
    have hsize : 0 < pageSize := by decide
    have hlt := k.early_lt
    unfold earlyTable
    omega

/-- The frame `n` is taken and cleared, and is not free any more. -/
structure Takes (k : KernelImage) (s : Vmm) (n : ℕ) (s₁ : Vmm) : Prop where
  free : s.Free k n
  mem_eq : s₁.mem = clearTable s.mem n
  rest : ∀ m, s₁.Free k m → s.Free k m ∧ m ≠ n
  supply : s₁.Supply k

theorem allocPageTable_takes (hs : s.Supply k) (hn : (allocPageTable k s).1 ≠ 0) :
    s.Takes k (allocPageTable k s).1 (allocPageTable k s).2 := by
  unfold allocPageTable at hn ⊢
  split at hn
  · next hi =>
    rw [if_pos hi]
    refine ⟨⟨hn, .inr ⟨_, le_rfl, hi, rfl⟩⟩, by dsimp only, ?_, ?_⟩
    · rintro m ⟨hm, hmem | ⟨i, hle, hlt, rfl⟩⟩
      · exact ⟨⟨hm, .inl hmem⟩, hs.not_early m hmem _ le_rfl hi⟩
      · have hle : s.earlyTableIndex + 1 ≤ i := hle
        refine ⟨⟨hm, .inr ⟨i, by omega, hlt, rfl⟩⟩, fun heq => ?_⟩
        have := earlyTable_inj heq
        omega
    · exact ⟨hs.aligned, hs.lt, fun f hf i hle => hs.not_early f hf i (Nat.le_of_succ_le hle),
        hs.distinct⟩
  · next hi =>
    rw [if_neg hi]
    unfold pmmAllocPage at hn ⊢
    cases hpmm : s.pmm with
    | nil =>
      rw [hpmm] at hn
      exact absurd rfl hn
    | cons f fs =>
      rw [hpmm] at hn
      have hf : f ≠ 0 := by
        rintro rfl
        exact absurd rfl hn
      have hdist := hs.distinct
      rw [hpmm, List.pairwise_cons] at hdist
      have hsub {g : ℕ} (hg : g ∈ fs) : g ∈ s.pmm := hpmm ▸ List.mem_cons_of_mem f hg
      dsimp only [List.headD_cons, List.tail_cons]
      rw [if_neg hf]
      refine ⟨⟨hf, .inl (hpmm ▸ List.mem_cons_self)⟩, by dsimp only, ?_, ?_⟩
      · rintro m ⟨hm, hmem | ⟨i, hle, hlt, rfl⟩⟩
        · refine ⟨⟨hm, .inl (hsub hmem)⟩, ?_⟩
          rintro rfl
          exact (hdist.1 m hmem).elim hf fun hne => hne rfl
        · exact absurd (Nat.lt_of_le_of_lt hle hlt) hi
      · exact ⟨fun g hg => hs.aligned g (hsub hg), fun g hg => hs.lt g (hsub hg),
          fun g hg => hs.not_early g (hsub hg), hdist.2⟩

theorem allocPageTable_fails (hs : s.Supply k) (hn : (allocPageTable k s).1 = 0) :
    (allocPageTable k s).2.mem = s.mem ∧ (allocPageTable k s).2.Supply k ∧
      ∀ m, (allocPageTable k s).2.Free k m → s.Free k m := by
  unfold allocPageTable at hn ⊢
  split at hn
  · next hi =>
    have hpos := k.early_pos
    have hn : k.earlyTables + s.earlyTableIndex * pageSize = 0 := hn
    omega
  · next hi =>
    rw [if_neg hi]
    unfold pmmAllocPage at hn ⊢
    dsimp only at hn ⊢
    have hhead : s.pmm.headD 0 = 0 := by
      by_contra hne
      rw [if_neg hne] at hn
      exact hne hn
    rw [if_pos hhead]
    have hsub {g : ℕ} (hg : g ∈ s.pmm.tail) : g ∈ s.pmm := List.mem_of_mem_tail hg
    refine ⟨rfl, ⟨fun g hg => hs.aligned g (hsub hg), fun g hg => hs.lt g (hsub hg),
      fun g hg => hs.not_early g (hsub hg), hs.distinct.sublist (List.tail_sublist _)⟩, ?_⟩
    rintro m ⟨hm, hmem | hearly⟩
    · exact ⟨hm, .inl (hsub hmem)⟩
    · exact ⟨hm, .inr hearly⟩

theorem install_pte_eq {t m : ℕ} {i j : Fin vmmEntries} (htake : s.Takes k n s₁) (hs : s.Supply k)
    (ht : pageSize ∣ t) (hm : pageSize ∣ m) (hmn : m ≠ n) (hne : m ≠ t ∨ j ≠ i) :
    (install s₁ t i n).pte m j = s.pte m j := by
  have hti : pteAddr m j ≠ pteAddr t i := by
    intro h
    obtain ⟨h1, h2⟩ := pteAddr_inj hm ht h
    exact hne.elim (fun h' => h' h1) fun h' => h' h2
  show Function.update s₁.mem _ _ (pteAddr m j) = s.mem (pteAddr m j)
  rw [Function.update_of_ne hti, htake.mem_eq]
  exact clearTable_of_ne fun j' h => hmn (pteAddr_inj hm (hs.free_aligned htake.free) h).1

theorem install_pte_fresh {t : ℕ} {i : Fin vmmEntries} (htake : s.Takes k n s₁) (hs : s.Supply k)
    (ht : pageSize ∣ t) (hnt : n ≠ t) (j : Fin vmmEntries) : (install s₁ t i n).pte n j = 0 := by
  have hti : pteAddr n j ≠ pteAddr t i := by
    intro h
    exact hnt (pteAddr_inj (hs.free_aligned htake.free) ht h).1
  show Function.update s₁.mem _ _ (pteAddr n j) = 0
  rw [Function.update_of_ne hti, htake.mem_eq, clearTable_self]

def SameKernel (k : KernelImage) (s s' : Vmm) : Prop :=
  ∀ q m, q.length ≤ 3 → s.table k q = some m → ∀ j, s'.pte m j = s.pte m j

theorem SameKernel.table_eq {s' : Vmm} (h : SameKernel k s s') {q : List (Fin vmmEntries)}
    (hq : q.length ≤ 3) : s'.table k q = s.table k q := by
  refine resolve_congr (d := 3) ?_ hq
  intro q' m j hq' hm
  unfold child
  rw [h q' m hq'.le hm]

theorem SameKernel.trans {s' s'' : Vmm} (h : SameKernel k s s') (h' : SameKernel k s' s'') :
    SameKernel k s s'' := by
  intro q m hq hm j
  have hm' : s'.table k q = some m := (h.table_eq hq).trans hm
  exact (h' q m hq hm' j).trans (h q m hq hm j)

theorem SameKernel.of_mem (hmem : s₁.mem = s.mem) : SameKernel k s s₁ := by
  intro q m _ _ j
  exact congrFun hmem _

theorem SameKernel.translateLevels {s' : Vmm} (h : SameKernel k s s') (w : ℕ) (levels : List (Fin 4))
    {q : List (Fin vmmEntries)} {t : ℕ} (hq : q.length + levels.length ≤ 4)
      (ht : s.table k q = some t) :
    translateLevels s' w levels t = Mm.translateLevels s w levels t := by
  induction levels generalizing q t with
  | nil => rfl
  | cons level levels ih =>
    rw [List.length_cons] at hq
    unfold Mm.translateLevels
    rw [h q t (by omega) ht]
    dsimp only
    cases htab : pteIsTable (s.pte t (pteIndex w level)) with
    | false => rfl
    | true =>
      have hnext : s.table k (q ++ [pteIndex w level]) =
          some (pteToPhys (s.pte t (pteIndex w level))) := by
        rw [table_snoc, ht, Option.bind_some, child, if_pos htab]
      have hlen : (q ++ [pteIndex w level]).length + levels.length ≤ 4 := by
        rw [List.length_append, List.length_singleton]
        omega
      rw [ih hlen hnext]

theorem SameKernel.translate {s' : Vmm} (h : SameKernel k s s') (w : ℕ) :
    Mm.translate s' k.kernelPgd w = Mm.translate s k.kernelPgd w := by
  have hroot : s.table k [] = some k.kernelPgd := rfl
  exact h.translateLevels w [0, 1, 2, 3] (le_refl 4) hroot

end Vmm

namespace UserVmm

variable {k : KernelImage} {u : UserVmm} {s₁ : Vmm} {n t g : ℕ} {i j : Fin vmmEntries}
  {p pre : List (Fin vmmEntries)}

/-- What hangs below a table of an address space, without the upper halves of the directories. The
directories themselves hang below `none`. -/
def own (u : UserVmm) : Option ℕ → Fin vmmEntries → Option (Option ℕ)
  | none, a => (u.mmPool[a.val]?).bind fun g => if g = 0 then none else some (some g)
  | some t, i =>
    if t ∈ u.mmPool ∧ vmmEntries / 2 ≤ i.val then none else (u.vmm.child t i).map some

def ownTable (u : UserVmm) (p : List (Fin vmmEntries)) : Option (Option ℕ) := resolve u.own none p

/-- What the calls keep: the tables of the address spaces are a tree, apart from those of the kernel and
from the frames that are free. -/
structure Isolated (k : KernelImage) (u : UserVmm) : Prop where
  supply : u.vmm.Supply k
  pool : u.mmPool.length ≤ mmPoolSize
  aligned : ∀ g ∈ u.mmPool, pageSize ∣ g
  sep : Separated u.own none 4
  pos : ∀ p t, p.length ≤ 4 → u.ownTable p = some (some t) → t ≠ 0
  noBlocks : ∀ p t i, p.length ≤ 3 → u.ownTable p = some (some t) →
    ¬(t ∈ u.mmPool ∧ vmmEntries / 2 ≤ i.val) → pteIsValid (u.vmm.pte t i) = true →
      pteIsTable (u.vmm.pte t i) = true
  upper : ∀ g ∈ u.mmPool, g ≠ 0 → ∀ i : Fin vmmEntries, vmmEntries / 2 ≤ i.val →
    u.vmm.pte g i = u.vmm.pte k.kernelPgd i
  kernel : ∀ p q t, p.length ≤ 4 → q.length ≤ 3 → u.ownTable p = some (some t) →
    u.vmm.table k q ≠ some t
  free_own : ∀ n, u.vmm.Free k n → ∀ p, p.length ≤ 4 → u.ownTable p ≠ some (some n)
  free_kernel : ∀ n, u.vmm.Free k n → ∀ q, q.length ≤ 3 → u.vmm.table k q ≠ some n

theorem ownTable_snoc (p : List (Fin vmmEntries)) (i : Fin vmmEntries) :
    u.ownTable (p ++ [i]) = (u.ownTable p).bind fun t => u.own t i :=
  resolve_snoc _ _ _

theorem own_none_eq (u : UserVmm) (a : Fin vmmEntries) :
    u.own none a = (u.mmPool[a.val]?).bind fun g => if g = 0 then none else some (some g) := rfl

theorem own_some_eq (u : UserVmm) (t : ℕ) (i : Fin vmmEntries) : u.own (some t) i =
    if t ∈ u.mmPool ∧ vmmEntries / 2 ≤ i.val then none else (u.vmm.child t i).map some := rfl

theorem own_some (h : u.own (some t) i = some (some n)) :
    ¬(t ∈ u.mmPool ∧ vmmEntries / 2 ≤ i.val) ∧ u.vmm.child t i = some n := by
  rw [own_some_eq] at h
  split at h
  · exact absurd h (by simp)
  · next hlow =>
    refine ⟨hlow, ?_⟩
    cases hchild : u.vmm.child t i with
    | none =>
      rw [hchild] at h
      exact absurd h (by simp)
    | some m =>
      rw [hchild] at h
      simpa using h

theorem Isolated.table_aligned (h : u.Isolated k) (ht : u.ownTable p = some (some t)) :
    pageSize ∣ t := by
  induction p using List.reverseRecOn with
  | nil => exact absurd ht (by simp [ownTable, resolve])
  | append_singleton p i _ =>
    rw [ownTable_snoc] at ht
    obtain ⟨m, -, hm⟩ := Option.bind_eq_some_iff.mp ht
    cases m with
    | none =>
      rw [own_none_eq] at hm
      obtain ⟨g, hg, hgt⟩ := Option.bind_eq_some_iff.mp hm
      split at hgt
      · exact absurd hgt (by simp)
      · obtain rfl := Option.some.inj (Option.some.inj hgt)
        exact h.aligned g (List.mem_of_getElem? hg)
    | some m =>
      rw [← (Vmm.child_eq_some (own_some hm).2).2]
      exact pageSize_dvd_pteToPhys _

theorem Isolated.root_of_getElem (h : u.Isolated k) {a : ℕ} (ha : u.mmPool[a]? = some g) (hg : g ≠ 0) :
    ∃ hlt : a < vmmEntries, u.ownTable [⟨a, hlt⟩] = some (some g) := by
  have hlt : a < vmmEntries := by
    have hpool : u.mmPool.length ≤ 64 := h.pool
    have hentries : vmmEntries = 512 := rfl
    obtain ⟨hlen, -⟩ := List.getElem?_eq_some_iff.mp ha
    omega
  exact ⟨hlt, by simp [ownTable, resolve, own_none_eq, ha, hg]⟩

theorem Isolated.root_of_mem_pool (h : u.Isolated k) (hmem : g ∈ u.mmPool) (hg : g ≠ 0) :
    ∃ a, u.ownTable [a] = some (some g) := by
  obtain ⟨a, ha⟩ := List.mem_iff_getElem?.mp hmem
  obtain ⟨hlt, hroot⟩ := h.root_of_getElem ha hg
  exact ⟨_, hroot⟩

theorem Isolated.length_of_mem_pool (h : u.Isolated k) (hp : p.length ≤ 4)
    (ht : u.ownTable p = some (some t)) (hmem : t ∈ u.mmPool) : p.length = 1 := by
  obtain ⟨a, hroot⟩ := h.root_of_mem_pool hmem (h.pos p t hp ht)
  rw [h.sep p [a] (some t) hp (by simp) ht hroot]
  rfl

/-- The frame of a page of the address space `a`, below the tables of its own. -/
def userPage (u : UserVmm) (a : Fin vmmEntries) (v : Vpn) : Option ℕ :=
  (u.ownTable (a :: v.path)).bind fun m => m.bind fun t =>
    if pteIsValid (u.vmm.pte t (v.index 3)) then some (pteToPhys (u.vmm.pte t (v.index 3))) else none

theorem Isolated.ownTable_next (h : u.Isolated k) (hp : p.length ≤ 3)
    (ht : u.ownTable p = some (some t))
    (hlow : ¬(t ∈ u.mmPool ∧ vmmEntries / 2 ≤ i.val)) : u.ownTable (p ++ [i]) =
      if pteIsValid (u.vmm.pte t i) then some (some (pteToPhys (u.vmm.pte t i))) else none := by
  rw [ownTable_snoc, ht, Option.bind_some, own_some_eq, if_neg hlow, Vmm.child]
  cases hval : pteIsValid (u.vmm.pte t i) with
  | true =>
    rw [if_pos (h.noBlocks p t i hp ht hlow hval)]
    rfl
  | false =>
    have htab : ¬pteIsTable (u.vmm.pte t i) = true := by
      intro htab
      rw [pteIsValid_of_isTable htab] at hval
      exact absurd hval (by decide)
    rw [if_neg htab]
    rfl

theorem Isolated.translateLevels_own (h : u.Isolated k) (w : ℕ) (levels : List (Fin 4))
    (h3 : 3 ∉ levels)
    (hpos : 1 ≤ p.length) (hp : p.length + levels.length ≤ 4) (ht : u.ownTable p = some (some t))
    (hlow : p.length = 1 → ∀ level ∈ levels.head?, (pteIndex w level).val < vmmEntries / 2) :
    translateLevels u.vmm w (levels ++ [3]) t =
      (u.ownTable (p ++ levels.map (pteIndex w))).bind fun m => m.bind fun t =>
        if pteIsValid (u.vmm.pte t (pteIndex w 3)) then
          some (pteToPhys (u.vmm.pte t (pteIndex w 3)) + w % pageSize)
        else none := by
  induction levels generalizing p t with
  | nil =>
    rw [List.map_nil, List.append_nil, ht]
    simp only [List.nil_append, translateLevels, Option.bind_some]
    cases pteIsValid (u.vmm.pte t (pteIndex w 3)) with
    | true => rfl
    | false => rfl
  | cons level levels ih =>
    rw [List.length_cons] at hp
    have hlow' : ¬(t ∈ u.mmPool ∧ vmmEntries / 2 ≤ (pteIndex w level).val) := by
      rintro ⟨hmem, hge⟩
      have := hlow (h.length_of_mem_pool (by omega) ht hmem) level (by simp)
      omega
    have hnext := h.ownTable_next (by omega) ht hlow'
    have hlevel : level ≠ 3 := fun heq => h3 (heq ▸ List.mem_cons_self)
    rw [List.map_cons, List.append_cons p, List.cons_append]
    unfold translateLevels
    dsimp only
    cases hval : pteIsValid (u.vmm.pte t (pteIndex w level)) with
    | false =>
      rw [hval] at hnext
      have hnone : u.ownTable (p ++ [pteIndex w level] ++ levels.map (pteIndex w)) = none := by
        unfold ownTable at hnext ⊢
        rw [resolve_append, hnext]
        rfl
      rw [hnone]
      rfl
    | true =>
      rw [hval, if_pos rfl] at hnext
      have htab := h.noBlocks p t _ (by omega) ht hlow' hval
      rw [if_neg (by simp), if_neg hlevel, if_pos htab]
      refine ih (fun hmem => h3 (List.mem_cons_of_mem _ hmem)) ?_ ?_ hnext ?_
      · rw [List.length_append, List.length_singleton]
        omega
      · rw [List.length_append, List.length_singleton]
        omega
      · intro hone
        rw [List.length_append, List.length_singleton] at hone
        omega

theorem Isolated.translate_lower (h : u.Isolated k) {a : Fin vmmEntries}
    (hroot : u.ownTable [a] = some (some g)) {w : ℕ} (hw : (pteIndex w 0).val < vmmEntries / 2) :
    translate u.vmm g w = (u.userPage a (vpn w)).map (· + w % pageSize) := by
  have hlow : [a].length = 1 → ∀ level ∈ [(0 : Fin 4), 1, 2].head?,
      (pteIndex w level).val < vmmEntries / 2 := by
    intro _ level hlevel
    obtain rfl : level = 0 := by simpa using hlevel.symm
    exact hw
  have hpath : [a] ++ [(0 : Fin 4), 1, 2].map (pteIndex w) = a :: (vpn w).path := by
    simp only [List.map_cons, List.map_nil, pteIndex_eq]
    rfl
  have hlevels := h.translateLevels_own w [0, 1, 2] (by decide) (le_refl 1) (le_refl 4) hroot hlow
  rw [hpath] at hlevels
  refine hlevels.trans ?_
  unfold userPage
  rw [pteIndex_eq w 3]
  cases u.ownTable (a :: (vpn w).path) with
  | none => rfl
  | some m =>
    cases m with
    | none => rfl
    | some t =>
      simp only [Option.bind_some]
      split <;> rfl

theorem Isolated.translate_upper (h : u.Isolated k) (hmem : g ∈ u.mmPool) (hg : g ≠ 0) {w : ℕ}
    (hw : vmmEntries / 2 ≤ (pteIndex w 0).val) :
      translate u.vmm g w = translate u.vmm k.kernelPgd w := by
  unfold translate translateLevels
  rw [h.upper g hmem hg _ hw]

theorem Isolated.translate_eq (h : u.Isolated k) {a : Fin vmmEntries} (ha : u.mmPool[a.val]? = some g)
    (hg : g ≠ 0) (w : ℕ) : translate u.vmm g w =
      if (pteIndex w 0).val < vmmEntries / 2 then (u.userPage a (vpn w)).map (· + w % pageSize)
      else translate u.vmm k.kernelPgd w := by
  split
  · next hlow =>
    obtain ⟨_, hroot⟩ := h.root_of_getElem ha hg
    exact h.translate_lower hroot hlow
  · next hhigh => exact h.translate_upper (List.mem_of_getElem? ha) hg (Nat.le_of_not_lt hhigh)

section Install

variable (h : u.Isolated k) (htake : u.vmm.Takes k n s₁) (hpre : u.ownTable pre = some (some t))
  (hlen : pre.length ≤ 3)
include h htake hpre

theorem install_pte_own {m : ℕ} (hp : p.length ≤ 4) (hm : u.ownTable p = some (some m))
    (hne : m ≠ t ∨ j ≠ i) : (Vmm.install s₁ t i n).pte m j = u.vmm.pte m j := by
  refine Vmm.install_pte_eq htake h.supply (h.table_aligned hpre) (h.table_aligned hm) ?_ hne
  rintro rfl
  exact h.free_own m htake.free p hp hm

include hlen

theorem install_pte_kernel {q : List (Fin vmmEntries)} {m : ℕ} (hq : q.length ≤ 3)
    (hm : u.vmm.table k q = some m) : (Vmm.install s₁ t i n).pte m j = u.vmm.pte m j := by
  refine Vmm.install_pte_eq htake h.supply (h.table_aligned hpre) (Vmm.table_aligned hm) ?_ (.inl ?_)
  · rintro rfl
    exact h.free_kernel m htake.free q hq hm
  · rintro rfl
    exact h.kernel pre q m (by omega) hq hpre hm

theorem install_pte_empty (j : Fin vmmEntries) : (Vmm.install s₁ t i n).pte n j = 0 := by
  refine Vmm.install_pte_fresh htake h.supply (h.table_aligned hpre) ?_ j
  rintro rfl
  exact h.free_own n htake.free pre (by omega) hpre

theorem install_sameKernel : Vmm.SameKernel k u.vmm (Vmm.install s₁ t i n) :=
  fun _ _ hq hm _ => install_pte_kernel h htake hpre hlen hq hm

variable (hlow : ¬(t ∈ u.mmPool ∧ vmmEntries / 2 ≤ i.val)) (hval : pteIsValid (u.vmm.pte t i) = false)
include hlow hval

theorem install_own : Graft u.own (own ⟨Vmm.install s₁ t i n, u.mmPool⟩) none 4 pre (some t) i
    (some n) where
  at_pre := hpre
  depth := by omega
  vacant := by
    have htab : ¬pteIsTable (u.vmm.pte t i) = true := by
      intro htab
      rw [pteIsValid_of_isTable htab] at hval
      exact absurd hval (by decide)
    rw [own_some_eq, if_neg hlow, Vmm.child, if_neg htab]
    rfl
  fresh q hq := h.free_own n htake.free q hq
  new := by
    have hmask : (pteValid ||| pteTable) &&& pteAddrMask = 0 := by decide
    rw [own_some_eq, if_neg hlow, Vmm.child, Vmm.install_pte_self, if_pos pteIsTable_physToPte,
      pteToPhys_physToPte (h.supply.free_aligned htake.free) (h.supply.free_lt htake.free) hmask]
    rfl
  empty j := by
    rw [own_some_eq, Vmm.child, install_pte_empty h htake hpre hlen]
    split <;> rfl
  old := by
    intro q m j hq hm hne
    cases m with
    | none => rfl
    | some m =>
      have hne' : m ≠ t ∨ j ≠ i := hne.imp_left fun hmt heq => hmt (congrArg some heq)
      rw [own_some_eq, own_some_eq, Vmm.child, Vmm.child, install_pte_own h htake hpre hq.le hm hne']

theorem install_isolated : Isolated k ⟨Vmm.install s₁ t i n, u.mmPool⟩ := by
  have hg := install_own h htake hpre hlen hlow hval
  have hkernel {q : List (Fin vmmEntries)} (hq : q.length ≤ 3) :
      (Vmm.install s₁ t i n).table k q = u.vmm.table k q :=
    (install_sameKernel h htake hpre hlen).table_eq hq
  have hfree (m : ℕ) (hm : (Vmm.install s₁ t i n).Free k m) : u.vmm.Free k m ∧ m ≠ n := htake.rest m hm
  have hsup := htake.supply
  refine ⟨⟨hsup.aligned, hsup.lt, hsup.not_early, hsup.distinct⟩, h.pool, h.aligned, hg.separated h.sep,
    ?_, ?_, ?_, ?_, ?_, ?_⟩
  · intro p m hp hm
    rcases hg.cases h.sep hp hm with ⟨-, hmn⟩ | ⟨-, hm⟩
    · exact Option.some.inj hmn ▸ htake.free.1
    · exact h.pos p m hp hm
  · intro p m j hp hm hlow' hvalid
    rcases hg.cases h.sep (by omega) hm with ⟨-, hmn⟩ | ⟨-, hm⟩
    · rw [Option.some.inj hmn] at hvalid
      dsimp only at hvalid
      rw [install_pte_empty h htake hpre hlen] at hvalid
      exact absurd hvalid (by decide)
    · by_cases hedge : m = t ∧ j = i
      · obtain ⟨rfl, rfl⟩ := hedge
        dsimp only
        rw [Vmm.install_pte_self]
        exact pteIsTable_physToPte
      · have hsame := install_pte_own h htake hpre (by omega) hm (not_and_or.mp hedge)
        dsimp only at hvalid ⊢
        rw [hsame] at hvalid ⊢
        exact h.noBlocks p m j hp hm hlow' hvalid
  · intro g hmem hg0 j hj
    obtain ⟨a, hroot⟩ := h.root_of_mem_pool hmem hg0
    have hne : g ≠ t ∨ j ≠ i := by
      by_contra hboth
      push Not at hboth
      obtain ⟨rfl, rfl⟩ := hboth
      exact hlow ⟨hmem, hj⟩
    have hpgd : u.vmm.table k [] = some k.kernelPgd := rfl
    dsimp only
    rw [install_pte_own h htake hpre (by simp) hroot hne,
      install_pte_kernel h htake hpre hlen (by simp) hpgd]
    exact h.upper g hmem hg0 j hj
  · intro p q m hp hq hm
    dsimp only
    rw [hkernel hq]
    rcases hg.cases h.sep hp hm with ⟨-, hmn⟩ | ⟨-, hm⟩
    · exact Option.some.inj hmn ▸ h.free_kernel n htake.free q hq
    · exact h.kernel p q m hp hq hm
  · intro m hm p hp hown
    obtain ⟨hm, hmn⟩ := hfree m hm
    rcases hg.cases h.sep hp hown with ⟨-, heq⟩ | ⟨-, hown⟩
    · exact hmn (Option.some.inj heq)
    · exact h.free_own m hm p hp hown
  · intro m hm q hq
    dsimp only
    rw [hkernel hq]
    exact h.free_kernel m (hfree m hm).1 q hq

theorem install_userPage (a : Fin vmmEntries) (v : Vpn) :
    userPage ⟨Vmm.install s₁ t i n, u.mmPool⟩ a v = u.userPage a v := by
  have hg := install_own h htake hpre hlen hlow hval
  have hv : (a :: v.path).length = 4 := rfl
  have htab := hg.resolve_eq h.sep hv.le
  unfold userPage ownTable
  rw [htab]
  split
  · next hpath =>
    have hnone : resolve u.own none (a :: v.path) = none := by
      rw [hpath, resolve_snoc, hg.at_pre]
      exact hg.vacant
    rw [hnone]
    simp only [Option.bind_some, Option.bind_none]
    rw [install_pte_empty h htake hpre hlen]
    rfl
  · cases hm : resolve u.own none (a :: v.path) with
    | none => rfl
    | some m =>
      cases m with
      | none => rfl
      | some m =>
        have hmt : m ≠ t := by
          rintro rfl
          have := congrArg List.length (h.sep _ pre (some m) hv.le (by omega) hm hpre)
          omega
        simp only [Option.bind_some]
        rw [install_pte_own h htake hpre hv.le hm (.inl hmt)]

end Install

section Leaf

variable {a : Fin vmmEntries} {v : Vpn} {e : ℕ} (h : u.Isolated k)
  (ht : u.ownTable (a :: v.path) = some (some t))
include h ht

theorem setLeaf_pte_own {m : ℕ} (hp : p.length ≤ 3) (hm : u.ownTable p = some (some m))
    (j : Fin vmmEntries) :
    (u.vmm.setPte t (v.index 3) e).pte m j = u.vmm.pte m j := by
  apply Function.update_of_ne
  intro heq
  obtain ⟨rfl, -⟩ := pteAddr_inj (h.table_aligned hm) (h.table_aligned ht) heq
  have := congrArg List.length (h.sep p (a :: v.path) (some m) (by omega) (le_refl 4) hm ht)
  have h4 : (a :: v.path).length = 4 := rfl
  omega

theorem setLeaf_pte_kernel {q : List (Fin vmmEntries)} {m : ℕ} (hq : q.length ≤ 3)
    (hm : u.vmm.table k q = some m) (j : Fin vmmEntries) :
    (u.vmm.setPte t (v.index 3) e).pte m j = u.vmm.pte m j := by
  apply Function.update_of_ne
  intro heq
  obtain ⟨rfl, -⟩ := pteAddr_inj (Vmm.table_aligned hm) (h.table_aligned ht) heq
  exact h.kernel (a :: v.path) q m (le_refl 4) hq ht hm

theorem setLeaf_ownTable (hp : p.length ≤ 4) :
    ownTable ⟨u.vmm.setPte t (v.index 3) e, u.mmPool⟩ p = u.ownTable p := by
  refine resolve_congr (d := 4) ?_ hp
  intro q m j hq hm
  cases m with
  | none => rfl
  | some m =>
    rw [own_some_eq, own_some_eq, Vmm.child, Vmm.child, setLeaf_pte_own h ht (by omega) hm]

theorem setLeaf_sameKernel : Vmm.SameKernel k u.vmm (u.vmm.setPte t (v.index 3) e) :=
  fun _ _ hq hm j => setLeaf_pte_kernel h ht hq hm j

theorem setLeaf_isolated : Isolated k ⟨u.vmm.setPte t (v.index 3) e, u.mmPool⟩ := by
  have hsup := h.supply
  refine ⟨⟨hsup.aligned, hsup.lt, hsup.not_early, hsup.distinct⟩, h.pool, h.aligned, ?_, ?_, ?_, ?_,
    ?_, ?_, ?_⟩
  · refine h.sep.congr ?_
    intro q m j hq hm
    cases m with
    | none => rfl
    | some m =>
      rw [own_some_eq, own_some_eq, Vmm.child, Vmm.child, setLeaf_pte_own h ht (by omega) hm]
  · intro p m hp hm
    rw [setLeaf_ownTable h ht hp] at hm
    exact h.pos p m hp hm
  · intro p m j hp hm hlow hvalid
    rw [setLeaf_ownTable h ht (by omega)] at hm
    dsimp only at hvalid ⊢
    rw [setLeaf_pte_own h ht hp hm] at hvalid ⊢
    exact h.noBlocks p m j hp hm hlow hvalid
  · intro g hmem hg0 j hj
    obtain ⟨b, hroot⟩ := h.root_of_mem_pool hmem hg0
    have hpgd : u.vmm.table k [] = some k.kernelPgd := rfl
    dsimp only
    rw [setLeaf_pte_own h ht (by simp) hroot, setLeaf_pte_kernel h ht (by simp) hpgd]
    exact h.upper g hmem hg0 j hj
  · intro p q m hp hq hm
    rw [setLeaf_ownTable h ht hp] at hm
    dsimp only
    rw [(setLeaf_sameKernel h ht).table_eq hq]
    exact h.kernel p q m hp hq hm
  · intro m hm p hp
    rw [setLeaf_ownTable h ht hp]
    exact h.free_own m hm p hp
  · intro m hm q hq
    dsimp only
    rw [(setLeaf_sameKernel h ht).table_eq hq]
    exact h.free_kernel m hm q hq

theorem setLeaf_userPage (b : Fin vmmEntries) (w : Vpn) :
    userPage ⟨u.vmm.setPte t (v.index 3) e, u.mmPool⟩ b w =
      if b = a ∧ w = v then (if pteIsValid e then some
        (pteToPhys e) else none) else u.userPage b w := by
  have hw : (b :: w.path).length ≤ 4 := le_refl 4
  unfold userPage
  rw [setLeaf_ownTable h ht hw]
  split
  · next hsame =>
    obtain ⟨rfl, rfl⟩ := hsame
    have hself : (u.vmm.setPte t (w.index 3) e).pte t (w.index 3) = e := Function.update_self _ _ _
    rw [ht]
    simp only [Option.bind_some]
    rw [hself]
  · next hsame =>
    cases hm : u.ownTable (b :: w.path) with
    | none => rfl
    | some m =>
      cases m with
      | none => rfl
      | some m =>
        have hpte : (u.vmm.setPte t (v.index 3) e).pte m (w.index 3) = u.vmm.pte m (w.index 3) := by
          apply Function.update_of_ne
          intro heq
          obtain ⟨rfl, h3⟩ := pteAddr_inj (h.table_aligned hm) (h.table_aligned ht) heq
          obtain ⟨rfl, hpath⟩ := List.cons.inj (h.sep _ _ (some m) hw (le_refl 4) hm ht)
          exact hsame ⟨rfl, Vpn.ext_index hpath h3⟩
        simp only [Option.bind_some]
        rw [hpte]

end Leaf

/-- No translation changes from `u` to the tables `s'`. -/
structure Extends (k : KernelImage) (u : UserVmm) (s' : Vmm) : Prop where
  isolated : Isolated k ⟨s', u.mmPool⟩
  userPage_eq : ∀ a v, userPage ⟨s', u.mmPool⟩ a v = u.userPage a v
  kernel : Vmm.SameKernel k u.vmm s'

theorem Extends.refl (h : u.Isolated k) : Extends k u u.vmm :=
  ⟨h, fun _ _ => rfl, fun _ _ _ _ _ => rfl⟩

theorem Extends.trans {s' s'' : Vmm} (h : Extends k u s') (h' : Extends k ⟨s', u.mmPool⟩ s'') :
    Extends k u s'' where
  isolated := h'.isolated
  userPage_eq a v := (h'.userPage_eq a v).trans (h.userPage_eq a v)
  kernel := h.kernel.trans h'.kernel

theorem Extends.of_mem (h : u.Isolated k) (hmem : s₁.mem = u.vmm.mem) (hsup : s₁.Supply k)
    (hfree : ∀ m, s₁.Free k m → u.vmm.Free k m) : Extends k u s₁ := by
  have hpte : s₁.pte = u.vmm.pte := by
    unfold Vmm.pte
    rw [hmem]
  have htable : s₁.table k = u.vmm.table k := Vmm.table_congr hmem
  have hown : own ⟨s₁, u.mmPool⟩ = u.own := by
    funext m j
    cases m with
    | none => rfl
    | some m =>
      rw [own_some_eq, own_some_eq, Vmm.child, Vmm.child]
      dsimp only
      rw [hpte]
  have hownTable : ownTable ⟨s₁, u.mmPool⟩ = u.ownTable := by
    unfold ownTable
    rw [hown]
  refine ⟨⟨hsup, h.pool, h.aligned, ?_, ?_, ?_, ?_, ?_, ?_, ?_⟩, ?_, Vmm.SameKernel.of_mem hmem⟩
  · rw [hown]
    exact h.sep
  · rw [hownTable]
    exact h.pos
  · dsimp only
    rw [hownTable, hpte]
    exact h.noBlocks
  · dsimp only
    rw [hpte]
    exact h.upper
  · dsimp only
    rw [hownTable, htable]
    exact h.kernel
  · rw [hownTable]
    exact fun m hm => h.free_own m (hfree m hm)
  · dsimp only
    rw [htable]
    exact fun m hm => h.free_kernel m (hfree m hm)
  · intro a v
    unfold userPage
    dsimp only
    rw [hownTable, hpte]

theorem nextTable_extends (h : u.Isolated k) (hpre : u.ownTable pre = some (some t))
    (hlen : pre.length ≤ 3)
    (hlow : ¬(t ∈ u.mmPool ∧ vmmEntries / 2 ≤ i.val)) :
    Extends k u (nextTable k u.vmm t i).2 ∧ ∀ m, (nextTable k u.vmm t i).1 = some m →
      ownTable ⟨(nextTable k u.vmm t i).2, u.mmPool⟩ (pre ++ [i]) = some (some m) := by
  unfold nextTable
  cases hval : pteIsValid (u.vmm.pte t i) with
  | true =>
    have hnext := h.ownTable_next hlen hpre hlow
    rw [hval, if_pos rfl] at hnext
    refine ⟨Extends.refl h, fun m hm => ?_⟩
    rw [← Option.some.inj hm]
    exact hnext
  | false =>
    simp only [Bool.not_false, if_true]
    by_cases hn : (allocPageTable k u.vmm).1 = 0
    · obtain ⟨hmem, hsup, hfree⟩ := Vmm.allocPageTable_fails h.supply hn
      rw [if_pos hn]
      exact ⟨Extends.of_mem h hmem hsup hfree, fun m hm => absurd hm (by simp)⟩
    · have htake := Vmm.allocPageTable_takes h.supply hn
      rw [if_neg hn]
      refine ⟨⟨install_isolated h htake hpre hlen hlow hval,
        install_userPage h htake hpre hlen hlow hval,
        install_sameKernel h htake hpre hlen⟩, fun m hm => ?_⟩
      have hmask : (pteValid ||| pteTable) &&& pteAddrMask = 0 := by decide
      have hentry : pteToPhys ((Vmm.install (allocPageTable k u.vmm).2 t i
          (allocPageTable k u.vmm).1).pte t i) =
          (allocPageTable k u.vmm).1 := by
        rw [Vmm.install_pte_self, pteToPhys_physToPte (h.supply.free_aligned htake.free)
          (h.supply.free_lt htake.free) hmask]
      rw [← Option.some.inj hm]
      exact ((install_own h htake hpre hlen hlow hval).resolve_new h.sep).trans
        (congrArg (fun m => some (some m)) hentry.symm)

theorem userTable_extends (h : u.Isolated k) (vaddr : ℕ) (levels : List (Fin 4))
    (hpre : u.ownTable pre = some (some t)) (hpos : 1 ≤ pre.length)
      (hlen : pre.length + levels.length ≤ 4)
    (hlow : pre.length = 1 → ∀ level ∈ levels.head?, (pteIndex vaddr level).val < vmmEntries / 2) :
    Extends k u (userTable k vaddr levels t u.vmm).2 ∧ ∀ m,
      (userTable k vaddr levels t u.vmm).1 = some m →
      ownTable ⟨(userTable k vaddr levels t u.vmm).2, u.mmPool⟩ (pre ++ levels.map (pteIndex vaddr)) =
        some (some m) := by
  induction levels generalizing pre t u with
  | nil =>
    refine ⟨Extends.refl h, fun m hm => ?_⟩
    rw [List.map_nil, List.append_nil, ← Option.some.inj hm]
    exact hpre
  | cons level levels ih =>
    rw [List.length_cons] at hlen
    have hlow' : ¬(t ∈ u.mmPool ∧ vmmEntries / 2 ≤ (pteIndex vaddr level).val) := by
      rintro ⟨hmem, hge⟩
      have := hlow (h.length_of_mem_pool (by omega) hpre hmem) level (by simp)
      omega
    obtain ⟨hext, hnext⟩ := nextTable_extends h hpre (by omega) hlow'
    unfold userTable
    rcases hresult : nextTable k u.vmm t (pteIndex vaddr level) with ⟨r, s'⟩
    rw [hresult] at hext hnext
    cases r with
    | none => exact ⟨hext, fun m hm => absurd hm (by simp)⟩
    | some next =>
      have hlen' : (pre ++ [pteIndex vaddr level]).length = pre.length + 1 := by simp
      obtain ⟨hext', htable⟩ := ih hext.isolated (hnext next rfl) (by omega) (by omega) (by omega)
      rw [List.map_cons, List.append_cons]
      exact ⟨hext.trans hext', htable⟩

theorem mapUserPage_spec (h : u.Isolated k) {a : Fin vmmEntries}
    (hroot : u.ownTable [a] = some (some g))
    {vaddr : ℕ} (hv : vaddr < userVmaEnd) (paddr flags : ℕ) :
    Isolated k ⟨(mapUserPage k u.vmm g vaddr paddr flags).2, u.mmPool⟩ ∧
      Vmm.SameKernel k u.vmm (mapUserPage k u.vmm g vaddr paddr flags).2 ∧
      ∀ b w, userPage ⟨(mapUserPage k u.vmm g vaddr paddr flags).2, u.mmPool⟩ b w =
        if (mapUserPage k u.vmm g vaddr paddr flags).1 = 0 ∧ b = a ∧
          w = vpn vaddr then some (pteToPhys paddr)
        else u.userPage b w := by
  have hlow : [a].length = 1 → ∀ level ∈ [(0 : Fin 4), 1, 2].head?,
      (pteIndex vaddr level).val < vmmEntries / 2 := by
    intro _ level hlevel
    obtain rfl : level = 0 := by simpa using hlevel.symm
    exact pteIndex_lt_of_user hv
  have hpath : [a] ++ [(0 : Fin 4), 1, 2].map (pteIndex vaddr) = a :: (vpn vaddr).path := by
    simp only [List.map_cons, List.map_nil, pteIndex_eq]
    rfl
  obtain ⟨hext, htable⟩ := userTable_extends h vaddr [0, 1, 2] hroot (le_refl 1) (le_refl 4) hlow
  rw [hpath] at htable
  unfold mapUserPage
  rcases hresult : userTable k vaddr [0, 1, 2] g u.vmm with ⟨r, s'⟩
  rw [hresult] at hext htable
  cases r with
  | none =>
    refine ⟨hext.isolated, hext.kernel, fun b w => ?_⟩
    have hr : (-1 : ℤ) ≠ 0 := by decide
    rw [if_neg fun hc => hr hc.1]
    exact hext.userPage_eq b w
  | some l3 =>
    have hl3 := htable l3 rfl
    rw [pteIndex_eq vaddr 3]
    refine ⟨setLeaf_isolated hext.isolated hl3,
      hext.kernel.trans (setLeaf_sameKernel hext.isolated hl3),
      fun b w => ?_⟩
    refine (setLeaf_userPage hext.isolated hl3 b w).trans ?_
    rw [pteIsValid_userPage, pteToPhys_userPage, hext.userPage_eq b w]
    simp

section Create

variable (h : u.Isolated k) (htake : u.vmm.Takes k n s₁) (hroom : u.mmPool.length < mmPoolSize)
include h htake

theorem create_pte_of_ne {m : ℕ} (hm : pageSize ∣ m) (hmn : m ≠ n) (j : Fin vmmEntries) :
    (copyKernelMappings k s₁ n).pte m j = u.vmm.pte m j := by
  have hn := h.supply.free_aligned htake.free
  have hne : ∀ i, pteAddr m j ≠ pteAddr n i := fun i heq => hmn (pteAddr_inj hm hn heq).1
  unfold Vmm.pte copyKernelMappings
  dsimp only
  rw [copyUpper_of_ne hne, htake.mem_eq, clearTable_of_ne hne]

theorem create_pgd_ne : k.kernelPgd ≠ n := by
  intro heq
  have hpgd : u.vmm.table k [] = some k.kernelPgd := rfl
  exact h.free_kernel n htake.free [] (by simp) (heq ▸ hpgd)

theorem create_pte_lower (hj : ¬vmmEntries / 2 ≤ j.val) :
    (copyKernelMappings k s₁ n).pte n j = 0 := by
  unfold Vmm.pte copyKernelMappings
  dsimp only
  rw [copyUpper_lower (h.supply.free_aligned htake.free) hj, htake.mem_eq, clearTable_self]

theorem create_pte_upper (hj : vmmEntries / 2 ≤ j.val) :
    (copyKernelMappings k s₁ n).pte n j = u.vmm.pte k.kernelPgd j := by
  have hn := h.supply.free_aligned htake.free
  have hne := create_pgd_ne h htake
  unfold Vmm.pte copyKernelMappings
  dsimp only
  rw [copyUpper_upper k.pgd_aligned hn hne hj, htake.mem_eq,
    clearTable_of_ne fun i heq => hne (pteAddr_inj k.pgd_aligned hn heq).1]

theorem create_sameKernel : Vmm.SameKernel k u.vmm (copyKernelMappings k s₁ n) := by
  intro q m hq hm j
  refine create_pte_of_ne h htake (Vmm.table_aligned hm) ?_ j
  rintro rfl
  exact h.free_kernel m htake.free q hq hm

theorem create_own (a : Fin vmmEntries) (ha : a.val = u.mmPool.length) :
    Graft u.own (own ⟨copyKernelMappings k s₁ n, u.mmPool ++ [n]⟩) none 4 [] none a
      (some n) where
  at_pre := rfl
  depth := by decide
  vacant := by
    rw [own_none_eq, ha]
    simp
  fresh q hq := h.free_own n htake.free q hq
  new := by
    rw [own_none_eq, ha]
    simp [htake.free.1]
  empty j := by
    rw [own_some_eq]
    split
    · rfl
    · next hlow =>
      have hj : ¬vmmEntries / 2 ≤ j.val := fun hj => hlow ⟨by simp, hj⟩
      rw [Vmm.child, create_pte_lower h htake hj]
      rfl
  old := by
    intro q m j hq hm hne
    cases m with
    | none =>
      have hja : j.val ≠ u.mmPool.length := by
        intro heq
        exact hne.elim (fun hc => hc rfl) fun hc => hc (Fin.ext (heq.trans ha.symm))
      rw [own_none_eq, own_none_eq]
      rcases Nat.lt_or_gt_of_ne hja with hlt | hgt
      · rw [List.getElem?_append_left hlt]
      · have hlong : (u.mmPool ++ [n]).length ≤ j.val := by
          rw [List.length_append, List.length_singleton]
          exact hgt
        rw [List.getElem?_eq_none hlong, List.getElem?_eq_none hgt.le]
    | some m =>
      have hmn : m ≠ n := by
        rintro rfl
        exact h.free_own m htake.free q hq.le hm
      have hmem : m ∈ u.mmPool ++ [n] ↔ m ∈ u.mmPool := by simp [hmn]
      rw [own_some_eq, own_some_eq, Vmm.child, Vmm.child,
        create_pte_of_ne h htake (h.table_aligned hm) hmn]
      simp only [hmem]

include hroom

theorem create_isolated :
    Isolated k ⟨copyKernelMappings k s₁ n, u.mmPool ++ [n]⟩ := by
  have hlt : u.mmPool.length < vmmEntries := by
    have hsize : mmPoolSize = 64 := rfl
    have hentries : vmmEntries = 512 := rfl
    omega
  have hg := create_own h htake ⟨u.mmPool.length, hlt⟩ rfl
  have hkernel := create_sameKernel h htake
  have hpgd : u.vmm.table k [] = some k.kernelPgd := rfl
  have hsup := htake.supply
  have hfree (m : ℕ) (hm : (copyKernelMappings k s₁ n).Free k m) : u.vmm.Free k m ∧ m ≠ n := by
    unfold Vmm.Free copyKernelMappings at hm
    exact htake.rest m hm
  have hsup : (copyKernelMappings k s₁ n).Supply k := by
    unfold copyKernelMappings
    exact ⟨hsup.aligned, hsup.lt, hsup.not_early, hsup.distinct⟩
  refine ⟨hsup, ?_, ?_, hg.separated h.sep, ?_, ?_, ?_, ?_, ?_, ?_⟩
  · rw [List.length_append, List.length_singleton]
    exact hroom
  · intro g hmem
    rcases List.mem_append.mp hmem with hmem | hmem
    · exact h.aligned g hmem
    · exact List.mem_singleton.mp hmem ▸ h.supply.free_aligned htake.free
  · intro p m hp hm
    rcases hg.cases h.sep hp hm with ⟨-, hmn⟩ | ⟨-, hm⟩
    · exact Option.some.inj hmn ▸ htake.free.1
    · exact h.pos p m hp hm
  · intro p m j hp hm hlow hvalid
    rcases hg.cases h.sep (by omega) hm with ⟨-, hmn⟩ | ⟨-, hm⟩
    · obtain rfl := Option.some.inj hmn
      have hj : ¬vmmEntries / 2 ≤ j.val := fun hj => hlow ⟨by simp, hj⟩
      rw [create_pte_lower h htake hj] at hvalid
      exact absurd hvalid (by decide)
    · have hmn : m ≠ n := by
        intro heq
        rw [heq] at hm
        exact h.free_own n htake.free p (by omega) hm
      rw [create_pte_of_ne h htake (h.table_aligned hm) hmn] at hvalid ⊢
      exact h.noBlocks p m j hp hm (fun hc => hlow ⟨List.mem_append_left _ hc.1, hc.2⟩) hvalid
  · intro g hmem hg0 j hj
    dsimp only at hmem ⊢
    rw [hkernel [] _ (by simp) hpgd]
    rcases List.mem_append.mp hmem with hmem | hmem
    · obtain ⟨a, hroot⟩ := h.root_of_mem_pool hmem hg0
      have hgn : g ≠ n := by
        rintro rfl
        exact h.free_own g htake.free [a] (by simp) hroot
      rw [create_pte_of_ne h htake (h.aligned g hmem) hgn]
      exact h.upper g hmem hg0 j hj
    · rw [List.mem_singleton.mp hmem, create_pte_upper h htake hj]
  · intro p q m hp hq hm
    dsimp only
    rw [hkernel.table_eq hq]
    rcases hg.cases h.sep hp hm with ⟨-, hmn⟩ | ⟨-, hm⟩
    · exact Option.some.inj hmn ▸ h.free_kernel n htake.free q hq
    · exact h.kernel p q m hp hq hm
  · intro m hm p hp hown
    obtain ⟨hm, hmn⟩ := hfree m hm
    rcases hg.cases h.sep hp hown with ⟨-, heq⟩ | ⟨-, hown⟩
    · exact hmn (Option.some.inj heq)
    · exact h.free_own m hm p hp hown
  · intro m hm q hq
    dsimp only
    rw [hkernel.table_eq hq]
    exact h.free_kernel m (hfree m hm).1 q hq

end Create

theorem Isolated.pad (h : u.Isolated k) (hroom : u.mmPool.length < mmPoolSize) :
    Isolated k ⟨u.vmm, u.mmPool ++ [0]⟩ := by
  have hchild : ∀ q m j, q.length < 4 → resolve u.own none q = some m →
      own ⟨u.vmm, u.mmPool ++ [0]⟩ m j = u.own m j := by
    intro q m j hq hm
    cases m with
    | none =>
      rw [own_none_eq, own_none_eq]
      rcases Nat.lt_or_ge j.val u.mmPool.length with hlt | hge
      · rw [List.getElem?_append_left hlt]
      · rw [List.getElem?_append_right hge, List.getElem?_eq_none hge]
        cases hd : j.val - u.mmPool.length with
        | zero => rfl
        | succ => rfl
    | some m =>
      have hmem : m ∈ u.mmPool ++ [0] ↔ m ∈ u.mmPool := by simp [h.pos q m hq.le hm]
      rw [own_some_eq, own_some_eq]
      simp only [hmem]
  have htable {p : List (Fin vmmEntries)} (hp : p.length ≤ 4) :
      ownTable ⟨u.vmm, u.mmPool ++ [0]⟩ p = u.ownTable p := resolve_congr hchild hp
  refine ⟨h.supply, ?_, ?_, h.sep.congr hchild, ?_, ?_, ?_, ?_, ?_, h.free_kernel⟩
  · rw [List.length_append, List.length_singleton]
    exact hroom
  · intro g hmem
    rcases List.mem_append.mp hmem with hmem | hmem
    · exact h.aligned g hmem
    · rw [List.mem_singleton.mp hmem]
      exact Nat.dvd_zero _
  · intro p m hp hm
    exact h.pos p m hp ((htable hp).symm.trans hm)
  · intro p m j hp hm hlow hvalid
    rw [htable (by omega)] at hm
    exact h.noBlocks p m j hp hm (fun hc => hlow ⟨List.mem_append_left _ hc.1, hc.2⟩) hvalid
  · intro g hmem hg0 j hj
    rcases List.mem_append.mp hmem with hmem | hmem
    · exact h.upper g hmem hg0 j hj
    · exact absurd (List.mem_singleton.mp hmem) hg0
  · intro p q m hp hq hm
    exact h.kernel p q m hp hq ((htable hp).symm.trans hm)
  · intro m hm p hp
    rw [htable hp]
    exact h.free_own m hm p hp

theorem Isolated.create (h : u.Isolated k) : (vmmCreateAddressSpace k u).2.Isolated k := by
  unfold vmmCreateAddressSpace
  split
  · exact h
  · next hfull =>
    have hroom : u.mmPool.length < mmPoolSize := Nat.lt_of_not_le hfull
    dsimp only
    split
    · next hn =>
      obtain ⟨hmem, hsup, hfree⟩ := Vmm.allocPageTable_fails h.supply hn
      exact (Extends.of_mem h hmem hsup hfree).isolated.pad hroom
    · next hn => exact create_isolated h (Vmm.allocPageTable_takes h.supply hn) hroom

theorem vmmMapUserPage_cases (u : UserVmm) (mm : Option ℕ) (vaddr paddr flags : ℕ) :
    vmmMapUserPage k u mm vaddr paddr flags = (-1, u) ∨
      ∃ a g, mm = some a ∧ u.mmPool[a]? = some g ∧ g ≠ 0 ∧ vaddr < userVmaEnd ∧
        vmmMapUserPage k u mm vaddr paddr flags =
          ((mapUserPage k u.vmm g vaddr paddr flags).1,
            ⟨(mapUserPage k u.vmm g vaddr paddr flags).2, u.mmPool⟩) := by
  unfold vmmMapUserPage
  cases hmm : mm.bind (u.mmPool[·]?) with
  | none => exact .inl rfl
  | some g =>
    obtain ⟨a, rfl, hg⟩ := Option.bind_eq_some_iff.mp hmm
    dsimp only
    split
    · exact .inl rfl
    · next hnull =>
      split
      · exact .inl rfl
      · next hv => exact .inr ⟨a, g, rfl, hg, hnull, Nat.lt_of_not_le hv, rfl⟩

theorem Isolated.step (h : u.Isolated k) {c : UserCall} {u' : UserVmm} (hstep : UserStep k u c u') :
    u'.Isolated k := by
  cases c with
  | createAddressSpace => exact hstep ▸ h.create
  | mapUserPage mm vaddr paddr flags =>
    rw [← show (vmmMapUserPage k u mm vaddr paddr flags).2 = u' from hstep]
    rcases vmmMapUserPage_cases u mm vaddr paddr flags with heq | ⟨a, g, -, ha, hg, hv, heq⟩
    · rw [heq]
      exact h
    · obtain ⟨hlt, hroot⟩ := h.root_of_getElem ha hg
      rw [heq]
      exact (mapUserPage_spec h hroot hv paddr flags).1

theorem isolated_nil {s : Vmm} (hf : s.FreshFrames k)
    (hearly : ∀ i p, s.earlyTableIndex ≤ i → i < earlyTablesCount → p.length ≤ 3 →
      s.table k p ≠ some (earlyTable k i)) : Isolated k ⟨s, []⟩ := by
  have hnone (p : List (Fin vmmEntries)) (t : ℕ) : ownTable ⟨s, []⟩ p ≠ some (some t) := by
    cases p with
    | nil => simp [ownTable, resolve]
    | cons a p => simp [ownTable, resolve, own_none_eq]
  refine ⟨⟨hf.aligned, hf.lt, hf.not_early, hf.distinct⟩, Nat.zero_le _,
    by simp, ?_, ?_, ?_, by simp, ?_, ?_, ?_⟩
  · intro p q m hp hq hpm hqm
    cases p with
    | nil =>
      cases q with
      | nil => rfl
      | cons b q => exact absurd hqm (by simp [resolve, own_none_eq])
    | cons a p => exact absurd hpm (by simp [resolve, own_none_eq])
  · exact fun p t _ ht => absurd ht (hnone p t)
  · exact fun p t i _ ht => absurd ht (hnone p t)
  · exact fun p q t _ _ ht => absurd ht (hnone p t)
  · exact fun n _ p _ => hnone p n
  · rintro n ⟨-, hmem | ⟨i, hle, hlt, rfl⟩⟩ q hq
    · exact hf.unused n hmem q hq
    · exact hearly i q hle hlt hq

end UserVmm

/-- In every state that `vmm_create_address_space` and `vmm_map_user_page` lead to, a call that maps a
page changes no translation of another address space or of the kernel; in its own it changes that of the
page if it returns 0, and none if it fails. -/
theorem map_user_page_isolated {k : KernelImage} {s₀ : Vmm} {calls : List UserCall} {u : UserVmm}
    (hf : s₀.FreshFrames k)
    (hearly : ∀ i p, s₀.earlyTableIndex ≤ i → i < earlyTablesCount → p.length ≤ 3 →
      s₀.table k p ≠ some (earlyTable k i))
    (hrun : Exec (UserStep k) ⟨s₀, []⟩ calls u) {a g : ℕ} (ha : u.mmPool[a]? = some g) (hg : g ≠ 0)
    (vaddr paddr flags : ℕ) :
    let r := vmmMapUserPage k u (some a) vaddr paddr flags
    (∀ b g', b ≠ a → u.mmPool[b]? = some g' → g' ≠ 0 → ∀ w,
      translate r.2.vmm g' w = translate u.vmm g' w) ∧
      (∀ w, translate r.2.vmm k.kernelPgd w = translate u.vmm k.kernelPgd w) ∧
      (r.1 = 0 → ∀ w, translate r.2.vmm g w =
        if vpn w = vpn vaddr then some (pteToPhys paddr + w % pageSize) else translate u.vmm g w) ∧
      (r.1 ≠ 0 → ∀ w, translate r.2.vmm g w = translate u.vmm g w) := by
  have h : u.Isolated k := by
    apply Exec.invariant _ hrun (UserVmm.isolated_nil hf hearly)
    intro u c u' hu hstep
    exact hu.step hstep
  intro r
  rcases UserVmm.vmmMapUserPage_cases u (some a) vaddr paddr flags with heq |
    ⟨_, g', hsome, ha', -, hv, heq⟩
  · have hr : r = (-1, u) := heq
    have hfail : (-1 : ℤ) ≠ 0 := by decide
    rw [hr]
    exact ⟨fun _ _ _ _ _ _ => rfl, fun _ => rfl, fun hc => absurd hc hfail, fun _ _ => rfl⟩
  obtain rfl := Option.some.inj hsome
  obtain rfl := Option.some.inj (ha.symm.trans ha')
  obtain ⟨hlt, hroot⟩ := h.root_of_getElem ha hg
  obtain ⟨h', hkernel, hpage⟩ := UserVmm.mapUserPage_spec h hroot hv paddr flags
  have hr : r = _ := heq
  rw [hr]
  generalize mapUserPage k u.vmm g vaddr paddr flags = ret at h' hkernel hpage
  have hafter {b g' : ℕ} (hb : u.mmPool[b]? = some g') (hg' : g' ≠ 0)
      (hsame : ∀ w, ret.1 = 0 ∧ b = a ∧ vpn w = vpn vaddr → False) (w : ℕ) :
      translate ret.2 g' w = translate u.vmm g' w := by
    obtain ⟨hblt, -⟩ := h.root_of_getElem hb hg'
    have hnot : ¬(ret.1 = 0 ∧ (⟨b, hblt⟩ : Fin vmmEntries) = ⟨a, hlt⟩ ∧ vpn w = vpn vaddr) := by
      rintro ⟨h1, h2, h3⟩
      exact hsame w ⟨h1, congrArg Fin.val h2, h3⟩
    rw [h.translate_eq (a := ⟨b, hblt⟩) hb hg' w, h'.translate_eq (a := ⟨b, hblt⟩) hb hg' w,
      hkernel.translate w, hpage, if_neg hnot]
  refine ⟨?_, hkernel.translate, ?_, ?_⟩
  · exact fun b g' hba hb hg' => hafter hb hg' fun _ hc => hba hc.2.1
  · intro hzero w
    dsimp only at hzero ⊢
    rw [h.translate_eq (a := ⟨a, hlt⟩) ha hg w, h'.translate_eq (a := ⟨a, hlt⟩) ha hg w,
      hkernel.translate w, hpage]
    by_cases hw : vpn w = vpn vaddr
    · have hlow : (pteIndex w 0).val < vmmEntries / 2 := by
        rw [pteIndex_eq, hw, ← pteIndex_eq]
        exact pteIndex_lt_of_user hv
      rw [if_pos hlow, if_pos ⟨hzero, rfl, hw⟩, if_pos hw]
      rfl
    · have hnot : ¬(ret.1 = 0 ∧ (⟨a, hlt⟩ : Fin vmmEntries) = ⟨a, hlt⟩ ∧ vpn w = vpn vaddr) :=
        fun hc => hw hc.2.2
      rw [if_neg hnot, if_neg hw]
  · exact fun hne => hafter ha hg fun _ hc => hne hc.1

theorem map_user_page_isolated_pair :
    ∃ u, Exec (UserStep smallImage) ⟨⟨fun _ => 0, 0, [0x41000000]⟩, []⟩
        [.createAddressSpace, .createAddressSpace] u ∧
      (vmmMapUserPage smallImage u (some 0) 0x5000 0x80000000 vmWrite).1 = 0 ∧
      translate
        (vmmMapUserPage smallImage u (some 0) 0x5000 0x80000000 vmWrite).2.vmm 0x40201000 0x5123 =
        some 0x80000123 ∧
      ∀ w, translate (vmmMapUserPage smallImage u
        (some 0) 0x5000 0x80000000 vmWrite).2.vmm 0x40202000 w =
        translate u.vmm 0x40202000 w := by
  have hrun : ∃ u, Exec (UserStep smallImage) ⟨⟨fun _ => 0, 0, [0x41000000]⟩, []⟩
      [.createAddressSpace, .createAddressSpace] u ∧ u.mmPool = [0x40201000, 0x40202000] ∧
        (vmmMapUserPage smallImage u (some 0) 0x5000 0x80000000 vmWrite).1 = 0 :=
    ⟨_, .cons rfl (.cons rfl (.nil _)), by rfl, by decide +kernel⟩
  obtain ⟨u, hrun, hpool, hzero⟩ := hrun
  have hfresh : Vmm.FreshFrames smallImage ⟨fun _ => 0, 0, [0x41000000]⟩ := by
    refine ⟨by decide, by decide, ?_, ?_, by decide⟩
    · intro f hf p _ hp
      rw [(table_of_zero (fun _ => rfl) hp).2] at hf
      exact absurd hf (by decide)
    · intro f hf i _ hlt
      obtain rfl := List.mem_singleton.mp hf
      revert hlt
      revert i
      decide
  have htree : Vmm.TableTree smallImage ⟨fun _ => 0, 0, [0x41000000]⟩ :=
    (tableTree_of_zero fun _ => rfl).1
  have hisolated := map_user_page_isolated hfresh htree.early hrun (a := 0) (g := 0x40201000)
    (by rw [hpool]; rfl) (by decide) 0x5000 0x80000000 vmWrite
  refine ⟨u, hrun, hzero, ?_, ?_⟩
  · exact (hisolated.2.2.1 hzero 0x5123).trans (if_pos (by decide))
  · exact hisolated.1 1 0x40202000 (by decide) (by rw [hpool]; rfl) (by decide)

end GcAos.Mm
