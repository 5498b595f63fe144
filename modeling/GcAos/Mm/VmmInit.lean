import GcAos.Mm.VmmRun
import GcAos.Mm.VmmUser

/-! The walk of the software and the walk of the processor in the kernel's tables. `vmm_init` maps
device memory and RAM with block entries, which only the processor follows. -/

namespace GcAos.Mm
open Lib Vmm

def pteBlock : ℕ := 0 <<< 1

def ramBlockSize : ℕ := 1 <<< 30
def ramBase : ℕ := 0x40000000

scoped instance neZero_entries : NeZero vmmEntries := ⟨by decide⟩

/-- The number of blocks that `vmm_init` maps the RAM with. -/
def ramBlocks (detectedMemory : ℕ) : ℕ :=
  let blocks := detectedMemory / ramBlockSize
  let blocks := if detectedMemory % ramBlockSize ≠ 0 then blocks + 1 else blocks
  let blocks := if blocks = 0 then 1 else blocks
  if 4 < blocks then 4 else blocks

def deviceFlags : ℕ := pteValid ||| pteBlock ||| pteAttrDevice ||| pteShNone ||| pteAccessed
def ramFlags : ℕ := pteValid ||| pteBlock ||| pteAttrNormal ||| pteShInner ||| pteAccessed

def deviceBlock (base : ℕ) : ℕ := (base &&& pteAddrMask) ||| deviceFlags

def ramBlock (base : ℕ) : ℕ := (base &&& pteAddrMask) ||| ramFlags

def mapRam (l1Table blocks : ℕ) (s : Vmm) : Vmm :=
  (List.range blocks).foldl
    (fun s i => s.setPte l1Table (Fin.ofNat vmmEntries (1 + i))
      (ramBlock (ramBase + i * ramBlockSize))) s

def bootVmm (mem : ℕ → ℕ) : Vmm := ⟨mem, 0, []⟩

/-- `vmm_init`, as far as it writes to the tables; `detectedMemory` is what `pmm_get_total_memory`
returns. -/
def vmmInit (k : KernelImage) (s : Vmm) (detectedMemory : ℕ) : ℤ × Vmm :=
  let idx0 := pteIndex 0 0
  let (l1Table, s) := allocPageTable k s
  if l1Table = 0 then (-1, s)
  else
    let s := s.setPte k.kernelPgd idx0 (physToPte l1Table (pteValid ||| pteTable))
    let s := s.setPte l1Table (Fin.ofNat vmmEntries 0) (deviceBlock 0)
    let s := mapRam l1Table (ramBlocks detectedMemory) s
    (0, s.setPte l1Table (Fin.ofNat vmmEntries 256) (deviceBlock 0x4000000000))

variable {k : KernelImage} {s s' : Vmm} {vaddr t e : ℕ} {p : List (Fin vmmEntries)}
  {j : Fin vmmEntries} {v : Vpn}

/-! ## Block entries -/

section SetBlock
variable (hs : s.Tables k) (ht : s.table k p = some t) (hp : p.length < 3)
  (hold : pteIsTable (s.pte t j) = false) (he : pteIsTable e = false)
include ht

theorem setBlock_pte_of_ne {q : List (Fin vmmEntries)} {m : ℕ} {i : Fin vmmEntries}
    (hm : s.table k q = some m) (hne : m ≠ t ∨ i ≠ j) : (s.setPte t j e).pte m i = s.pte m i := by
  apply Function.update_of_ne
  intro h
  obtain ⟨hmt, hij⟩ := pteAddr_inj (table_aligned hm) (table_aligned ht) h
  exact hne.elim (· hmt) (· hij)

include hold he

theorem setBlock_child {q : List (Fin vmmEntries)} {m : ℕ} {i : Fin vmmEntries}
    (hm : s.table k q = some m) : (s.setPte t j e).child m i = s.child m i := by
  unfold child
  by_cases hne : m = t ∧ i = j
  · obtain ⟨rfl, rfl⟩ := hne
    have hself : (s.setPte m i e).pte m i = e := Function.update_self _ _ _
    rw [hself, he, hold]
    simp
  · rw [setBlock_pte_of_ne ht hm (not_and_or.mp hne)]

theorem setBlock_table {q : List (Fin vmmEntries)} (hq : q.length ≤ 3) :
    (s.setPte t j e).table k q = s.table k q :=
  resolve_congr (fun _ _ _ _ hm => setBlock_child ht hold he hm) hq

include hs

theorem setBlock_tables : (s.setPte t j e).Tables k where
  sep := hs.sep.congr fun _ _ _ _ hm => setBlock_child ht hold he hm
  table_pos := by
    intro q m hq hm
    rw [setBlock_table ht hold he hq] at hm
    exact hs.table_pos q m hq hm
  early := by
    intro i q hi hlt hq
    rw [setBlock_table ht hold he hq]
    exact hs.early i q hi hlt hq

include hp

theorem setBlock_block (hvalid : pteIsValid e = true) {q : List (Fin vmmEntries)} (hq : q.length < 3)
    (i : Fin vmmEntries) :
    (s.setPte t j e).block k q i = if q = p ∧ i = j then some e else s.block k q i := by
  unfold block
  rw [setBlock_table ht hold he hq.le]
  by_cases hnew : q = p ∧ i = j
  · obtain ⟨rfl, rfl⟩ := hnew
    have hself : (s.setPte t i e).pte t i = e := Function.update_self _ _ _
    rw [if_pos ⟨rfl, rfl⟩, ht, Option.bind_some, hself, hvalid, he]
    rfl
  · rw [if_neg hnew]
    cases hm : s.table k q with
    | none => rfl
    | some m =>
      have hne : m ≠ t ∨ i ≠ j := by
        by_contra hcon
        push Not at hcon
        obtain ⟨rfl, rfl⟩ := hcon
        exact hnew ⟨hs.sep q p m hq.le hp.le hm ht, rfl⟩
      rw [Option.bind_some, Option.bind_some, setBlock_pte_of_ne ht hm hne]

end SetBlock

theorem blockEntry_flags {base flags : ℕ} (hflags : flags % 4 = 1) :
    pteIsValid (physToPte base flags) = true ∧ pteIsTable (physToPte base flags) = false := by
  have hmod := physToPte_mod base flags
  refine ⟨pteIsValid_iff.mpr (by omega), ?_⟩
  rw [← Bool.not_eq_true, pteIsTable_iff]
  omega

theorem deviceBlock_flags (base : ℕ) :
    pteIsValid (deviceBlock base) = true ∧ pteIsTable (deviceBlock base) = false := by
  have hflags : deviceFlags % 4 = 1 := by decide
  exact blockEntry_flags hflags

theorem ramBlock_flags (base : ℕ) :
    pteIsValid (ramBlock base) = true ∧ pteIsTable (ramBlock base) = false := by
  have hflags : ramFlags % 4 = 1 := by decide
  exact blockEntry_flags hflags

theorem pteToPhys_deviceBlock {base : ℕ} (hal : pageSize ∣ base) (hlt : base < 2 ^ 48) :
    pteToPhys (deviceBlock base) = base := by
  have hmask : deviceFlags &&& pteAddrMask = 0 := by decide
  exact pteToPhys_physToPte hal hlt hmask

theorem pteToPhys_ramBlock {base : ℕ} (hal : pageSize ∣ base) (hlt : base < 2 ^ 48) :
    pteToPhys (ramBlock base) = base := by
  have hmask : ramFlags &&& pteAddrMask = 0 := by decide
  exact pteToPhys_physToPte hal hlt hmask

/-! ## The tables after `vmm_init` -/

/-- The entry of the level 1 table for the block `i`. -/
def initBlock (blocks : ℕ) (i : Fin vmmEntries) : Option ℕ :=
  if i.val = 0 ∨ i.val = 256 then some (deviceBlock (i * ramBlockSize))
  else if i.val ≤ blocks then some (ramBlock (i * ramBlockSize))
  else none

theorem initBlock_phys {blocks : ℕ} {i : Fin vmmEntries} (h : initBlock blocks i = some e) :
    pteToPhys e = i * 2 ^ 30 ∧ (i.val ≤ blocks ∨ i.val = 256) := by
  have hi : i.val < 512 := i.isLt
  have hsize : ramBlockSize = 2 ^ 30 := rfl
  have hal : pageSize ∣ i.val * 2 ^ 30 := ⟨i.val * 2 ^ 18, by unfold pageSize; omega⟩
  have hlt : i.val * 2 ^ 30 < 2 ^ 48 := by omega
  unfold initBlock at h
  rw [hsize] at h
  split at h
  · next hdev =>
    obtain rfl := Option.some.inj h
    exact ⟨pteToPhys_deviceBlock hal hlt, by omega⟩
  · split at h
    · next hram =>
      obtain rfl := Option.some.inj h
      exact ⟨pteToPhys_ramBlock hal hlt, .inl hram⟩
    · exact absurd h (by simp)

theorem initBlock_ne_none_iff {blocks : ℕ} {i : Fin vmmEntries} :
    initBlock blocks i ≠ none ↔ i.val ≤ blocks ∨ i.val = 256 := by
  unfold initBlock
  split_ifs with hdev hram
  · exact iff_of_true (by simp) (by omega)
  · exact iff_of_true (by simp) (.inl hram)
  · exact iff_of_false (by simp) (by omega)

/-- The level 1 table `t` has these block entries, and there are no others. -/
structure LevelOne (k : KernelImage) (s : Vmm) (t : ℕ) (m : Fin vmmEntries → Option ℕ) : Prop where
  tables : s.Tables k
  root : s.table k [pteIndex 0 0] = some t
  leaves : ∀ i, pteIsTable (s.pte t i) = false
  block_eq : ∀ q i, q.length < 3 →
    s.block k q i = if q = [pteIndex 0 0] then m i else none

theorem LevelOne.setBlock {m : Fin vmmEntries → Option ℕ} (h : LevelOne k s t m)
    (j : Fin vmmEntries) (he : pteIsValid e = true ∧ pteIsTable e = false) :
    LevelOne k (s.setPte t j e) t (Function.update m j (some e)) where
  tables := setBlock_tables h.tables h.root (h.leaves j) he.2
  root := by
    rw [setBlock_table h.root (h.leaves j) he.2 (by simp)]
    exact h.root
  leaves := by
    intro i
    by_cases hij : i = j
    · have hself : (s.setPte t i e).pte t i = e := Function.update_self _ _ _
      rw [← hij, hself, he.2]
    · rw [setBlock_pte_of_ne h.root h.root (.inr hij)]
      exact h.leaves i
  block_eq := by
    intro q i hq
    rw [setBlock_block h.tables h.root (by simp) (h.leaves j) he.2 he.1 hq, h.block_eq q i hq]
    by_cases hpath : q = [pteIndex 0 0]
    · by_cases hij : i = j
      · rw [if_pos ⟨hpath, hij⟩, if_pos hpath, hij, Function.update_self]
      · rw [if_neg (fun hcon => hij hcon.2), if_pos hpath, if_pos hpath, Function.update_of_ne hij]
    · rw [if_neg (fun hcon => hpath hcon.1), if_neg hpath, if_neg hpath]

theorem LevelOne.mapRam {n : ℕ} {m : Fin vmmEntries → Option ℕ} (h : LevelOne k s t m) (hn : n ≤ 4) :
    LevelOne k (mapRam t n s) t fun i =>
      if 1 ≤ i.val ∧ i.val ≤ n then some (ramBlock (i * ramBlockSize)) else m i := by
  induction n with
  | zero =>
    have hm : (fun i : Fin vmmEntries =>
        if 1 ≤ i.val ∧ i.val ≤ 0 then some (ramBlock (i * ramBlockSize)) else m i) = m := by
      funext i
      rw [if_neg (by omega)]
    rw [hm]
    exact h
  | succ n ih =>
    have hval : (Fin.ofNat vmmEntries (1 + n)).val = 1 + n := by
      show (1 + n) % 512 = 1 + n
      omega
    have hbase : ramBase + n * ramBlockSize = (Fin.ofNat vmmEntries (1 + n)).val * ramBlockSize := by
      rw [hval, Nat.add_mul]
      rfl
    have hstep : GcAos.Mm.mapRam t (n + 1) s =
        (GcAos.Mm.mapRam t n s).setPte t (Fin.ofNat vmmEntries (1 + n))
          (ramBlock (ramBase + n * ramBlockSize)) := by
      unfold GcAos.Mm.mapRam
      rw [List.range_succ, List.foldl_append]
      rfl
    rw [hstep, hbase]
    convert (ih (by omega)).setBlock _ (ramBlock_flags _) using 1
    funext i
    by_cases hi : i = Fin.ofNat vmmEntries (1 + n)
    · rw [hi, Function.update_self, if_pos (by omega)]
    · have hne : i.val ≠ 1 + n := fun heq => hi (Fin.ext (heq.trans hval.symm))
      rw [Function.update_of_ne hi]
      by_cases hin : 1 ≤ i.val ∧ i.val ≤ n
      · rw [if_pos hin, if_pos (by omega)]
      · rw [if_neg hin, if_neg (by omega)]

theorem ramBlocks_le (detectedMemory : ℕ) : ramBlocks detectedMemory ≤ 4 := by
  unfold ramBlocks
  dsimp only
  split_ifs <;> omega

section Boot
variable {mem : ℕ → ℕ} (hzero : ∀ i, (bootVmm mem).pte k.kernelPgd i = 0)
include hzero

theorem bootVmm_allocates : (bootVmm mem).Allocates k (allocPageTable k (bootVmm mem)).1
    (allocPageTable k (bootVmm mem)).2 := by
  have hidx : (bootVmm mem).earlyTableIndex < earlyTablesCount := Nat.zero_lt_succ 3
  exact allocPageTable_early (tableTree_of_zero hzero).1.tables (freshFrames_nil (bootVmm mem)) hidx

theorem vmmInit_level_one :
    LevelOne k (install (allocPageTable k (bootVmm mem)).2 k.kernelPgd (pteIndex 0 0)
      (allocPageTable k (bootVmm mem)).1) (allocPageTable k (bootVmm mem)).1 fun _ => none := by
  have hs : (bootVmm mem).Tables k := (tableTree_of_zero hzero).1.tables
  have ha := bootVmm_allocates hzero
  have hroot : (bootVmm mem).table k [] = some k.kernelPgd := rfl
  have hval : pteIsValid ((bootVmm mem).pte k.kernelPgd (pteIndex 0 0)) = false := by
    rw [hzero]
    rfl
  refine ⟨install_tables hs ha hroot (by simp) hval, ?_, ?_, ?_⟩
  · exact (install_graft ha hroot (by simp) hval).resolve_new hs.sep
  · intro i
    rw [install_pte_new ha hroot (by simp)]
    rfl
  · intro q i hq
    rw [install_block hs ha hroot (by simp) hval hq.le, ite_self]
    cases hb : (bootVmm mem).block k q i with
    | none => rfl
    | some e =>
      obtain ⟨m, hm, hme, hvalid, -⟩ := block_eq_some hb
      rw [(table_of_zero hzero hm).2, hzero] at hme
      rw [← hme] at hvalid
      exact absurd hvalid (by decide)

theorem vmmInit_spec (detectedMemory : ℕ) :
    (vmmInit k (bootVmm mem) detectedMemory).1 = 0 ∧
      (vmmInit k (bootVmm mem) detectedMemory).2.Tables k ∧
      ∀ q i, q.length < 3 → (vmmInit k (bootVmm mem) detectedMemory).2.block k q i =
        if q = [pteIndex 0 0] then initBlock (ramBlocks detectedMemory) i else none := by
  have h := vmmInit_level_one hzero
  have hne : (allocPageTable k (bootVmm mem)).1 ≠ 0  := (bootVmm_allocates hzero).pos.ne'
  have hbase0 : (0 : ℕ) = (Fin.ofNat vmmEntries 0).val * ramBlockSize := rfl
  have hbase256 : 0x4000000000 = (Fin.ofNat vmmEntries 256).val * ramBlockSize := rfl
  have h' := ((h.setBlock (Fin.ofNat vmmEntries 0) (deviceBlock_flags 0)).mapRam
    (ramBlocks_le detectedMemory)).setBlock (Fin.ofNat vmmEntries 256)
      (deviceBlock_flags 0x4000000000)
  unfold vmmInit
  dsimp only
  rw [if_neg hne]
  refine ⟨rfl, h'.tables, fun q i hq => ?_⟩
  refine (h'.block_eq q i hq).trans ?_
  by_cases hpath : q = [pteIndex 0 0]
  · rw [if_pos hpath, if_pos hpath]
    have hblocks := ramBlocks_le detectedMemory
    unfold initBlock
    by_cases h256 : i = Fin.ofNat vmmEntries 256
    · rw [h256, Function.update_self, if_pos (.inr rfl), hbase256]
    · have hne256 : i.val ≠ 256 := fun heq => h256 (Fin.ext heq)
      rw [Function.update_of_ne h256]
      by_cases h0 : i = Fin.ofNat vmmEntries 0
      · rw [h0, if_neg (fun hcon => absurd hcon.1 (by decide)), Function.update_self,
          if_pos (.inl rfl), hbase0]
        rfl
      · have hne0 : i.val ≠ 0 := fun heq => h0 (Fin.ext heq)
        rw [Function.update_of_ne h0, if_neg (not_or.mpr ⟨hne0, hne256⟩)]
        by_cases hram : i.val ≤ ramBlocks detectedMemory
        · rw [if_pos hram, if_pos ⟨Nat.one_le_iff_ne_zero.mpr hne0, hram⟩]
        · rw [if_neg hram, if_neg (fun hcon => hram hcon.2)]
  · rw [if_neg hpath, if_neg hpath]

end Boot

/-! ## The two walks -/

theorem page_eq_bind (s : Vmm) (vaddr : ℕ) : s.page k (vpn vaddr) =
    (s.table k (vpn vaddr).path).bind fun t =>
      if pteIsValid (s.pte t (pteIndex vaddr 3)) then some (pteToPhys (s.pte t (pteIndex vaddr 3)))
      else none := by
  rw [page, pteIndex_eq]

theorem vpn_path (vaddr : ℕ) : (vpn vaddr).path = [0, 1, 2].map (pteIndex vaddr) := by
  simp only [List.map_cons, List.map_nil, pteIndex_eq]
  rfl

theorem translateLevels_unblocked (levels : List (Fin 4)) (h3 : 3 ∉ levels)
    (hb : ∀ q i m, q ++ [i] <+: levels.map (pteIndex vaddr) → resolve s.child t q = some m →
      pteIsValid (s.pte m i) = true → pteIsTable (s.pte m i) = true) :
    translateLevels s vaddr (levels ++ [3]) t =
      (resolve s.child t (levels.map (pteIndex vaddr))).bind fun m =>
        if pteIsValid (s.pte m (pteIndex vaddr 3)) then
          some (pteToPhys (s.pte m (pteIndex vaddr 3)) + vaddr % pageSize)
        else none := by
  induction levels generalizing t with
  | nil =>
    have hsize : (2 : ℕ) ^ vmmLevelShift 3 = pageSize := rfl
    simp only [List.nil_append, translateLevels, List.map_nil, resolve, Option.bind_some, hsize,
      if_true]
    cases pteIsValid (s.pte t (pteIndex vaddr 3)) <;> rfl
  | cons level levels ih =>
    obtain ⟨hlevel, hlevels⟩ := not_or.mp (mt List.mem_cons.mpr h3)
    have hstep : pteIsValid (s.pte t (pteIndex vaddr level)) = true →
        pteIsTable (s.pte t (pteIndex vaddr level)) = true :=
      hb [] _ t (List.prefix_append _ _) rfl
    rw [List.cons_append, translateLevels, List.map_cons, resolve, child]
    cases hval : pteIsValid (s.pte t (pteIndex vaddr level)) with
    | false =>
      have htab : ¬ pteIsTable (s.pte t (pteIndex vaddr level)) = true := by
        intro h
        rw [pteIsValid_of_isTable h] at hval
        exact absurd hval (by decide)
      simp only [Bool.not_false, if_true, if_neg htab, Option.bind_none]
    | true =>
      simp only [Bool.not_true, Bool.false_eq_true, if_false, if_neg (Ne.symm hlevel),
        if_pos (hstep hval), Option.bind_some]
      apply ih hlevels
      intro q i m hqi hm
      refine hb (pteIndex vaddr level :: q) i m ?_ ?_
      · rw [List.map_cons, List.cons_append, List.cons_prefix_cons]
        exact ⟨rfl, hqi⟩
      · rw [resolve, child, if_pos (hstep hval)]
        exact hm

theorem translate_unblocked (hb : ¬ s.Blocked k (vpn vaddr)) :
    translate s k.kernelPgd vaddr = (s.page k (vpn vaddr)).map fun paddr =>
      paddr + vaddr % pageSize := by
  have h := @translateLevels_unblocked s vaddr k.kernelPgd [0, 1, 2] (by decide) ?_
  · refine h.trans ?_
    rw [page_eq_bind, vpn_path, Option.map_bind]
    refine congrArg _ (funext fun m => ?_)
    rw [Function.comp_apply]
    split_ifs <;> rfl
  · intro q i m hqi hm hvalid
    by_contra htab
    rw [Bool.not_eq_true] at htab
    refine hb ⟨q, i, vpn_path vaddr ▸ hqi, ?_⟩
    rw [block_ne_none hm hvalid htab]
    simp

theorem translate_block (hb : s.block k [pteIndex vaddr 0] (pteIndex vaddr 1) = some e) :
    translate s k.kernelPgd vaddr = some (pteToPhys e / 2 ^ 30 * 2 ^ 30 + vaddr % 2 ^ 30) ∧
      s.page k (vpn vaddr) = none := by
  obtain ⟨t, ht, hte, hvalid, htab⟩ := block_eq_some hb
  have hchild : s.child k.kernelPgd (pteIndex vaddr 0) = some t := by
    have hroot : s.table k ([] ++ [pteIndex vaddr 0]) = some t := ht
    rwa [table_snoc] at hroot
  obtain ⟨hroot, hphys⟩ := child_eq_some hchild
  have hsize : vmmLevelShift 1 = 30 := rfl
  constructor
  · rw [translate, translateLevels, translateLevels, hphys, hte]
    simp [pteIsValid_of_isTable hroot, hroot, hvalid, htab, hsize]
  · rw [page_eq_bind, vpn_path]
    have hnone : s.child t (pteIndex vaddr 1) = none := by
      rw [child, hte, htab]
      rfl
    simp [table, resolve, hchild, hnone]

/-- The address is in a block that `vmm_init` has mapped: in the first gigabytes, or in the 257th. -/
def InBlock (blocks vaddr : ℕ) : Prop :=
  vaddr % 2 ^ 48 / 2 ^ 30 ≤ blocks ∨ vaddr % 2 ^ 48 / 2 ^ 30 = 256

/-- The tables have the block entries that `vmm_init` has written, and no others. -/
structure Booted (k : KernelImage) (blocks : ℕ) (s : Vmm) : Prop where
  tables : s.Tables k
  block_eq : ∀ q i, q.length < 3 →
    s.block k q i = if q = [pteIndex 0 0] then initBlock blocks i else none
  le : blocks ≤ 4

theorem Booted.blocked_iff {blocks : ℕ} (h : Booted k blocks s) :
    s.Blocked k (vpn vaddr) ↔ s.block k [pteIndex vaddr 0] (pteIndex vaddr 1) ≠ none := by
  rw [Blocked, vpn_path]
  constructor
  · rintro ⟨q, i, hqi, hne⟩
    have hlen := hqi.length_le
    rw [List.length_append, List.length_singleton] at hlen
    have hq : q = [pteIndex 0 0] := by
      by_contra hq
      rw [h.block_eq q i (Nat.lt_of_succ_le hlen), if_neg hq] at hne
      exact hne rfl
    subst hq
    obtain ⟨h0, hrest⟩ := List.cons_prefix_cons.mp hqi
    obtain ⟨h1, -⟩ := List.cons_prefix_cons.mp hrest
    rw [← h0, ← h1]
    exact hne
  · exact fun hne => ⟨_, _, List.prefix_append _ [pteIndex vaddr 2], hne⟩

theorem Booted.inBlock_iff {blocks : ℕ} (h : Booted k blocks s) :
    s.block k [pteIndex vaddr 0] (pteIndex vaddr 1) ≠ none ↔ InBlock blocks vaddr := by
  have hle := h.le
  have h0 : (pteIndex vaddr 0).val = vaddr / 2 ^ 39 % 512 := pteIndex_val vaddr 0
  have h1 : (pteIndex vaddr 1).val = vaddr / 2 ^ 30 % 512 := pteIndex_val vaddr 1
  have hz : (pteIndex 0 0).val = 0 := rfl
  rw [h.block_eq _ _ (by simp), InBlock]
  by_cases hlow : pteIndex vaddr 0 = pteIndex 0 0
  · rw [hlow, if_pos rfl, initBlock_ne_none_iff, h1]
    rw [hlow, hz] at h0
    omega
  · rw [if_neg (fun hcon => hlow (List.singleton_inj.mp hcon))]
    have hne : vaddr / 2 ^ 39 % 512 ≠ 0 := fun hcon => hlow (Fin.ext (h0.trans (hcon.trans hz.symm)))
    refine iff_of_false (by simp) ?_
    omega

theorem Booted.virtToPhys_iff {blocks pa : ℕ} (h : Booted k blocks s)
    (ht : translate s k.kernelPgd vaddr = some pa) :
    vmmVirtToPhys k s vaddr = pa ↔ ¬ InBlock blocks vaddr ∨ vaddr % 2 ^ 48 = 0 := by
  rw [vmmVirtToPhys_eq h.tables]
  by_cases hin : InBlock blocks vaddr
  · obtain ⟨e, he⟩ := Option.ne_none_iff_exists'.mp (h.inBlock_iff.mpr hin)
    obtain ⟨htrans, hnone⟩ := translate_block he
    have hpath : [pteIndex vaddr 0] = [pteIndex 0 0] := by
      by_contra hcon
      rw [h.block_eq _ _ (by simp), if_neg hcon] at he
      exact absurd he (by simp)
    rw [h.block_eq _ _ (by simp), if_pos hpath] at he
    obtain ⟨hphys, -⟩ := initBlock_phys he
    have h0 : (pteIndex vaddr 0).val = vaddr / 2 ^ 39 % 512 := pteIndex_val vaddr 0
    have h1 : (pteIndex vaddr 1).val = vaddr / 2 ^ 30 % 512 := pteIndex_val vaddr 1
    have hz : (pteIndex vaddr 0).val = 0 := congrArg Fin.val (List.singleton_inj.mp hpath)
    rw [htrans, hphys] at ht
    have hpa := Option.some.inj ht
    rw [hnone, Option.elim_none, or_iff_right (not_not.mpr hin)]
    omega
  · have hb : ¬ s.Blocked k (vpn vaddr) := by
      rw [h.blocked_iff, h.inBlock_iff]
      exact hin
    rw [translate_unblocked hb] at ht
    obtain ⟨f, hf, rfl⟩ := Option.map_eq_some_iff.mp ht
    rw [hf]
    exact iff_of_true rfl (.inl hin)

/-! ## Runs after `vmm_init` -/

/-- A call of `vmm_map_page` or `vmm_unmap_page`, with whatever arguments. -/
inductive PageStep (k : KernelImage) : Vmm → VmmCall → Vmm → Prop
  | mapPage {s s' : Vmm} {vaddr paddr flags : ℕ} {frames : List ℕ} {ret : ℤ} :
      FreshFrames k { s with pmm := frames } →
      vmmMapPage k { s with pmm := frames } vaddr paddr flags = (ret, s') →
      PageStep k s (.mapPage vaddr paddr flags frames ret) s'
  | unmapPage {s s' : Vmm} {vaddr : ℕ} {ret : ℤ} :
      vmmUnmapPage k s vaddr = (ret, s') → PageStep k s (.unmapPage vaddr ret) s'

theorem Booted.kept {blocks : ℕ} (h : Booted k blocks s) (hkept : Kept k s s') :
    Booted k blocks s' where
  tables := hkept.tables
  block_eq := fun q i hq => (hkept.block_eq q i hq).trans (h.block_eq q i hq)
  le := h.le

theorem Booted.step {blocks : ℕ} (s : Vmm) (c : VmmCall) (s' : Vmm) (h : Booted k blocks s)
    (hstep : PageStep k s c s') : Booted k blocks s' := by
  cases hstep with
  | @mapPage _ vaddr paddr flags frames ret hf hcall =>
    have hbefore : Booted k blocks { s with pmm := frames } := by
      refine ⟨h.tables.congr rfl rfl, fun q i hq => ?_, h.le⟩
      rw [← h.block_eq q i hq]
      exact congrFun (congrFun (block_congr rfl) q) i
    exact hbefore.kept (vmmMapPage_effect hbefore.tables hf hcall).1
  | unmapPage hcall => exact h.kept (vmmUnmapPage_effect h.tables hcall).1

/-- After `vmm_init` and any calls, an address that the processor translates has the same translation
by `vmm_virt_to_phys` unless it is in one of the blocks of `vmm_init`: there it is 0. -/
theorem virtToPhys_eq_translate_iff {mem : ℕ → ℕ} {detectedMemory pa : ℕ} {calls : List VmmCall}
    (hzero : ∀ i, (bootVmm mem).pte k.kernelPgd i = 0)
    (hrun : Exec (PageStep k) (vmmInit k (bootVmm mem) detectedMemory).2 calls s)
    (ht : translate s k.kernelPgd vaddr = some pa) :
    vmmVirtToPhys k s vaddr = pa ↔
      ¬ InBlock (ramBlocks detectedMemory) vaddr ∨ vaddr % 2 ^ 48 = 0 := by
  obtain ⟨-, hs, hblock⟩ := vmmInit_spec hzero detectedMemory
  have hboot : Booted k (ramBlocks detectedMemory) (vmmInit k (bootVmm mem) detectedMemory).2 :=
    ⟨hs, hblock, ramBlocks_le detectedMemory⟩
  exact (hrun.invariant Booted.step hboot).virtToPhys_iff ht

theorem virtToPhys_eq_translate_page :
    ∃ s, Exec (PageStep smallImage) (vmmInit smallImage emptyVmm (1 <<< 30)).2
        [.mapPage 0x8000000000 0x40005000 0 [] 0] s ∧
      translate s smallImage.kernelPgd 0x8000000123 = some 0x40005123 ∧
      vmmVirtToPhys smallImage s 0x8000000123 = 0x40005123 := by
  have hsplit : ∀ x : ℤ × Vmm, x.1 = 0 → x = (0, x.2) := fun x h => Prod.ext h rfl
  obtain ⟨x, hx⟩ : ∃ x, x = vmmMapPage smallImage
      { (vmmInit smallImage emptyVmm (1 <<< 30)).2 with pmm := [] } 0x8000000000 0x40005000 0 :=
    ⟨_, rfl⟩
  have hret : x.1 = 0 := by rw [hx]; decide +kernel
  have ht : translate x.2 smallImage.kernelPgd 0x8000000123 = some 0x40005123 := by
    rw [hx]
    decide +kernel
  have hrun : Exec (PageStep smallImage) (vmmInit smallImage emptyVmm (1 <<< 30)).2
      [.mapPage 0x8000000000 0x40005000 0 [] 0] x.2 :=
    .cons (.mapPage (freshFrames_nil _) (hx.symm.trans (hsplit x hret))) (.nil _)
  refine ⟨x.2, hrun, ht, ?_⟩
  refine (@virtToPhys_eq_translate_iff _ _ _ (fun _ => 0) _ _ _ (fun _ => rfl) hrun ht).mpr (.inl ?_)
  unfold InBlock ramBlocks
  decide

theorem virtToPhys_misses_block :
    translate (vmmInit smallImage emptyVmm (1 <<< 30)).2 smallImage.kernelPgd 0x40001234 =
        some 0x40001234 ∧
      vmmVirtToPhys smallImage (vmmInit smallImage emptyVmm (1 <<< 30)).2 0x40001234 ≠
        0x40001234 := by
  decide +kernel

end GcAos.Mm
