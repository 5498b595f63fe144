import GcAos.Fs.Ext4AllocLaws
import GcAos.Fs.Ext4Dir

/-! What a failed `ext4_add_dir_entry` leaves behind. -/

namespace GcAos.Fs
open Lib Draft

namespace Ext4Fs

structure SameRecords (fs fs' : Ext4Fs) : Prop where
  rest : fs' = { fs with device := fs'.device }
  bitmaps : ∀ k group, group < fs.groupCount →
    fs'.device (BitmapKind.bitmap k fs group) = fs.device (BitmapKind.bitmap k fs group)

variable {fs fs' fs'' : Ext4Fs} {k k' : BitmapKind} {group i b ino : ℕ} {buf : Bytes}

theorem superFree_lt (fs : Ext4Fs) (k : BitmapKind) : fs.super k.superFree < 2 ^ 32 := by
  have hlt := ext4Superblock.get_lt (m := fs.sb) (a := 0) (f := k.superFree)
  cases k <;> exact hlt

theorem superFree_takeBit_self (fs : Ext4Fs) (k : BitmapKind) (group i : ℕ) :
    (fs.takeBit k group i).super k.superFree = (fs.super k.superFree + (2 ^ 32 - 1)) % 2 ^ 32 :=
  super_setSuper_free.trans (if_pos rfl)

theorem superFree_takeBit_of_ne (h : k' ≠ k) :
    (fs.takeBit k group i).super k'.superFree = fs.super k'.superFree :=
  super_setSuper_free.trans (if_neg h)

theorem superFree_dropBit_self (fs : Ext4Fs) (k : BitmapKind) (group i : ℕ) :
    (fs.dropBit k group i).super k.superFree = (fs.super k.superFree + 1) % 2 ^ 32 :=
  super_setSuper_free.trans (if_pos rfl)

theorem superFree_dropBit_of_ne (h : k' ≠ k) :
    (fs.dropBit k group i).super k'.superFree = fs.super k'.superFree :=
  super_setSuper_free.trans (if_neg h)

theorem superFree_takeBit_ne (fs : Ext4Fs) (k : BitmapKind) (group i : ℕ) :
    (fs.takeBit k group i).super k.superFree ≠ fs.super k.superFree := by
  have hlt := superFree_lt fs k
  rw [superFree_takeBit_self]
  omega

namespace SameRecords

theorem refl (fs : Ext4Fs) : SameRecords fs fs := ⟨rfl, fun _ _ _ => rfl⟩

theorem of_eq (h : fs' = fs) : SameRecords fs fs' := h ▸ refl fs

theorem geometry (h : SameRecords fs fs') : fs'.geometry = fs.geometry := by
  rw [h.rest]
  rfl

theorem super_eq (h : SameRecords fs fs') (f : SuperField) : fs'.super f = fs.super f := by
  rw [h.rest]
  rfl

theorem trans (h : SameRecords fs fs') (h' : SameRecords fs' fs'') : SameRecords fs fs'' := by
  refine ⟨?_, fun k group hgroup => ?_⟩
  · have hrest := h'.rest
    rw [h.rest] at hrest
    exact hrest
  · have hcount : fs'.groupCount = fs.groupCount := congrArg Geometry.groupCount h.geometry
    have hkept := h'.bitmaps k group (hcount ▸ hgroup)
    rw [bitmap_congr h.geometry] at hkept
    exact hkept.trans (h.bitmaps k group hgroup)

theorem putBlock (hb : ∀ k group, group < fs.groupCount → BitmapKind.bitmap k fs group ≠ b) :
    SameRecords fs (fs.putBlock b buf) :=
  ⟨rfl, fun k group hgroup => device_putBlock_of_ne (hb k group hgroup)⟩

theorem putBlock_of_not_reserved (hb : ¬fs.geometry.Reserved b) :
    SameRecords fs (fs.putBlock b buf) := by
  apply putBlock
  rintro k group hgroup rfl
  rw [bitmap_eq_place rfl] at hb
  exact hb (Geometry.reserved_place (has_bitmap hgroup))

theorem putInode (hg : fs.geometry.Sane) (hino : fs.geometry.ValidIno ino) :
    SameRecords fs (fs.putInode ino buf) := by
  apply putBlock
  intro k group hgroup heq
  rw [bitmap_eq_place rfl, inodeBlock_eq rfl hg] at heq
  have harea := hg.apart _ _ (has_bitmap hgroup) (hg.has_inodeArea hino) heq
  cases k <;> exact Area.noConfusion harea

theorem dropBit (hb : fs.HasBitmaps) (hfree : fs.FreeBit k group i)
    (h : SameRecords (fs.takeBit k group i) fs') : SameRecords fs (fs'.dropBit k group i) := by
  have hi := hfree.index_lt.trans_le (hb.fits k)
  have hback := dropBit_takeBit hi hfree.clear
  have htake : (fs.takeBit k group i).device = Function.update fs.device (k.bitmap fs group)
      ((fs.device (k.bitmap fs group)).setBit i) := device_takeBit_eq hi
  obtain ⟨device, rfl⟩ : ∃ device, fs' = { fs.takeBit k group i with device } := ⟨_, h.rest⟩
  have hbits (k' : BitmapKind) (group' : ℕ) (hgroup' : group' < fs.groupCount) :
      device (BitmapKind.bitmap k' fs group') =
        (fs.takeBit k group i).device (BitmapKind.bitmap k' fs group') := by
    have hkept := h.bitmaps k' group' hgroup'
    rw [bitmap_congr geometry_takeBit] at hkept
    exact hkept
  have hbitmap : k.bitmap { fs.takeBit k group i with device } group = k.bitmap fs group :=
    bitmap_congr h.geometry |>.trans (bitmap_congr geometry_takeBit)
  have hdrop : (Ext4Fs.dropBit { fs.takeBit k group i with device } k group i).device =
      Function.update device (k.bitmap fs group) ((device (k.bitmap fs group)).clearBit i) := by
    rw [← hbitmap]
    exact device_dropBit_eq hi
  refine ⟨?_, fun k' group' hgroup' => ?_⟩
  · calc Ext4Fs.dropBit { fs.takeBit k group i with device } k group i
        = { (fs.takeBit k group i).dropBit k group i with
            device := (Ext4Fs.dropBit { fs.takeBit k group i with device } k group i).device } := rfl
      _ = _ := by rw [hback]
  · rw [hdrop]
    by_cases hblock : BitmapKind.bitmap k' fs group' = k.bitmap fs group
    · rw [hblock, Function.update_self, hbits k group hfree.group_lt, htake, Function.update_self]
      exact Bytes.clearBit_setBit hfree.clear
    · rw [Function.update_of_ne hblock, hbits k' group' hgroup', htake,
        Function.update_of_ne hblock]

end SameRecords

end Ext4Fs

namespace Ext4

/-- `ext4_set_file_block` takes no block for the single indirect block. -/
def MakesNoIndirect (s : Ext4) (inode : Bytes) (fileBlock ino : ℕ) : Prop :=
  ext4NdirBlocks + s.fs.ptrsPerBlock ≤ fileBlock ∨ iBlock inode ext4IndBlock ≠ 0 ∨
    (s.allocBit .block (s.inodeGroup ino)).1 = none

/-- The tail of `ext4_add_dir_entry` fails where it has taken no block, or where it gives the block
back. -/
def AppendUnwinds (s : Ext4) (dirIno : ℕ) (dirInode name : Bytes) (ino fileType : ℕ) : Prop :=
  (s.allocBit .block (s.inodeGroup dirIno)).1 = none ∨
    let numBlocks := s.blocksIn (ext4Inode.get dirInode 0 .sizeLo)
    let (newBlock, s) := s.allocBlock (s.inodeGroup dirIno)
    0 ≤ newBlock ∧
      let (ret, s) := s.writeBlockRaw newBlock.toNat
        (putEntry (fun _ => 0) 0 ino s.fs.blockSize fileType name)
      if ret < 0 then (s.freeBlock newBlock.toNat).1 = 0
      else
        let (ret, _, s') := s.setFileBlock dirInode numBlocks newBlock.toNat dirIno
        ret < 0 ∧ s.MakesNoIndirect dirInode numBlocks dirIno ∧ (s'.freeBlock newBlock.toNat).1 = 0

/-- A failing `ext4_add_dir_entry` keeps no block. -/
def AddUnwinds (s : Ext4) (dirIno : ℕ) (name : Bytes) (ino fileType : ℕ) : Prop :=
  let (dirInode?, s) := s.readInode dirIno
  match dirInode? with
  | none => True
  | some dirInode =>
    let (ok, s) := s.kmalloc
    if !ok then True
    else
      let numBlocks := s.blocksIn (ext4Inode.get dirInode 0 .sizeLo)
      let (found, s) :=
        scanDir dirInode (entrySize (nameLength name)) (List.range numBlocks) s
      found.isSome ∨ s.AppendUnwinds dirIno dirInode name ino fileType

variable {s s' : Ext4} {k : BitmapKind} {preferred : ℕ} {g : Geometry}

theorem allocBlock_snd : (s.allocBlock preferred).2 = (s.allocBit .block preferred).2 := by
  unfold allocBlock
  rcases s.allocBit .block preferred with ⟨_ | ⟨group, index⟩, s₁⟩ <;> rfl

theorem allocInode_snd : (s.allocInode preferred).2 = (s.allocBit .inode preferred).2 := by
  unfold allocInode
  rcases s.allocBit .inode preferred with ⟨_ | ⟨group, index⟩, s₁⟩ <;> rfl

theorem allocBit_eq_none_iff (hb : s.fs.HasBitmaps) :
    (s.allocBit k preferred).1 = none ↔ (s.allocBit k preferred).2.fs = s.fs := by
  rcases hcall : s.allocBit k preferred with ⟨r, s₁⟩
  obtain ⟨-, hcases⟩ := allocBit_eq hcall
  rcases hcases with ⟨hnone, hsame⟩ | ⟨group, index, hsome, hgroup, hindex, -, hclear, htake⟩
  · exact iff_of_true hnone hsame
  · refine iff_of_false (by rw [hsome]; exact Option.some_ne_none _) ?_
    rw [htake]
    exact (hb.tookBit ⟨hgroup, hindex, hclear⟩).ne

section
variable (hfs : s.fs.geometry = g) (hg : g.Sane)
include hfs hg

theorem allocBlock_ends {n : ℤ} (h : s.allocBlock preferred = (n, s')) :
    (s.allocBit .block preferred).1 = none ∧ n < 0 ∧ s'.fs = s.fs ∨
      (s.allocBit .block preferred).1 ≠ none ∧ ∃ group index, s.fs.FreeBit .block group index ∧
        s'.fs = s.fs.takeBit .block group index ∧
        (n < 0 ∨ 0 ≤ n ∧ n.toNat = g.blockAt group index) := by
  have hb : s.fs.HasBitmaps := Ext4Fs.hasBitmaps (hfs ▸ hg)
  have hnone : (s.allocBit .block preferred).1 = none ↔ s'.fs = s.fs := by
    rw [allocBit_eq_none_iff hb, ← allocBlock_snd, h]
  rcases (allocBlock_eq hfs hg h).2 with ⟨hneg, hsame⟩ | ⟨group, index, hgroup, hindex, hclear, htake, hn⟩
  · exact .inl ⟨hnone.mpr hsame, hneg, hsame⟩
  · subst hfs
    have hfree : s.fs.FreeBit .block group index := ⟨hgroup, hindex, hclear⟩
    refine .inr ⟨fun hno => ?_, group, index, hfree, htake, hn⟩
    exact (hb.tookBit hfree).ne (htake ▸ hnone.mp hno)

theorem allocInode_ends {n : ℤ} (h : s.allocInode preferred = (n, s')) :
    (s.allocBit .inode preferred).1 = none ∧ n < 0 ∧ s'.fs = s.fs ∨
      (s.allocBit .inode preferred).1 ≠ none ∧ ∃ group index, s.fs.FreeBit .inode group index ∧
        s'.fs = s.fs.takeBit .inode group index ∧
        (n < 0 ∨ 0 ≤ n ∧ n.toNat = group * g.inodesPerGroup + index + 1) := by
  have hb : s.fs.HasBitmaps := Ext4Fs.hasBitmaps (hfs ▸ hg)
  have hnone : (s.allocBit .inode preferred).1 = none ↔ s'.fs = s.fs := by
    rw [allocBit_eq_none_iff hb, ← allocInode_snd, h]
  rcases (allocInode_eq hfs hg h).2 with ⟨hneg, hsame⟩ | ⟨group, index, hgroup, hindex, hclear, htake, hn⟩
  · exact .inl ⟨hnone.mpr hsame, hneg, hsame⟩
  · subst hfs
    have hfree : s.fs.FreeBit .inode group index := ⟨hgroup, hindex, hclear⟩
    refine .inr ⟨fun hno => ?_, group, index, hfree, htake, hn⟩
    exact (hb.tookBit hfree).ne (htake ▸ hnone.mp hno)

theorem freeBlock_ends {b : ℕ} {r : ℤ} (hb : g.InRange b) (h : s.freeBlock b = (r, s')) :
    r ≠ 0 ∧ s'.fs = s.fs ∨ r = 0 ∧ s'.fs = s.fs.dropBit .block (g.groupOf b) (g.indexOf b) := by
  subst hfs
  have hgroup : s.fs.geometry.groupOf b < 2 ^ 32 := by
    have hlt := hb.2.trans_le hg.blocks_le
    have hle := Nat.div_le_self (b - s.fs.geometry.firstDataBlock) s.fs.geometry.blocksPerGroup
    rw [Geometry.groupOf]
    omega
  rw [freeBlock_eq_freeBit hb.1 hgroup] at h
  obtain ⟨-, ⟨hsame, rfl⟩ | ⟨-, rfl, hdrop⟩⟩ := freeBit_eq h
  · exact .inl ⟨by decide, hsame⟩
  · exact .inr ⟨rfl, hdrop⟩

end

section
variable {v v' : Bytes} {fb d ino : ℕ} {r : ℤ} (hfs : s.fs.geometry = g) (hg : g.Sane)
include hfs hg

theorem makeIndirect_count (h : s.makeIndirect v preferred = (r, v', s')) :
    s'.fs.geometry = g ∧
      ((iBlock v ext4IndBlock ≠ 0 ∧ r = 0 ∨ (s.allocBit .block preferred).1 = none ∧ r < 0) ∧
        s'.fs = s.fs ∨
      iBlock v ext4IndBlock = 0 ∧ (s.allocBit .block preferred).1 ≠ none ∧
        s'.fs.super .freeBlocksCountLo = (s.fs.super .freeBlocksCountLo + (2 ^ 32 - 1)) % 2 ^ 32) := by
  -- behind the allocation only the content of blocks changes
  have hmade {n : ℤ} {s₁ : Ext4} (hnone : iBlock v ext4IndBlock = 0)
      (halloc : s.allocBlock preferred = (n, s₁)) (hpos : 0 ≤ n ∨ (s.allocBit .block preferred).1 ≠ none)
      (hrest : s'.fs = { s₁.fs with device := s'.fs.device }) :
      s'.fs.geometry = g ∧ iBlock v ext4IndBlock = 0 ∧ (s.allocBit .block preferred).1 ≠ none ∧
        s'.fs.super .freeBlocksCountLo = (s.fs.super .freeBlocksCountLo + (2 ^ 32 - 1)) % 2 ^ 32 := by
    rcases allocBlock_ends hfs hg halloc with ⟨hno, hneg, -⟩ | ⟨hyes, group, index, -, htake, -⟩
    · exact absurd hno (hpos.resolve_left (not_le.mpr hneg))
    · rw [hrest]
      refine ⟨?_, hnone, hyes, ?_⟩
      · show s₁.fs.geometry = g
        rw [htake, Ext4Fs.geometry_takeBit, hfs]
      · show s₁.fs.super .freeBlocksCountLo = _
        rw [htake]
        exact Ext4Fs.superFree_takeBit_self s.fs .block group index
  cases makeIndirect_route h with
  | there hsome => exact ⟨hfs, .inl ⟨.inl ⟨hsome, rfl⟩, rfl⟩⟩
  | full hnone halloc hneg =>
    rcases allocBlock_ends hfs hg halloc with ⟨hno, -, hsame⟩ | ⟨hyes, -⟩
    · rw [hsame]
      exact ⟨hfs, .inl ⟨.inr ⟨hno, by decide⟩, rfl⟩⟩
    · exact (hmade hnone halloc (.inr hyes) rfl).imp_right .inr
  | unzeroed hnone halloc hpos _ hsame =>
    exact (hmade hnone halloc (.inl hpos) (by rw [hsame])).imp_right .inr
  | zeroed hnone halloc hpos _ hput =>
    refine (hmade hnone halloc (.inl hpos) ?_).imp_right .inr
    rw [hput]
    rfl

theorem count_of_makeIndirect {ret : ℤ} {v₁ : Bytes} {s₁ : Ext4} (hdir : ext4NdirBlocks ≤ fb)
    (hin : fb - ext4NdirBlocks < s.fs.ptrsPerBlock)
    (hmake : s.makeIndirect v (s.inodeGroup ino) = (ret, v₁, s₁))
    (hrest : s'.fs = { s₁.fs with device := s'.fs.device }) (hr : r < 0 → s'.fs = s₁.fs) :
    s'.fs.geometry = g ∧
      (s'.fs.super .freeBlocksCountLo = s.fs.super .freeBlocksCountLo ∧
        (r < 0 → s.MakesNoIndirect v fb ino ∧ s'.fs = s.fs) ∨
      ¬s.MakesNoIndirect v fb ino ∧
        s'.fs.super .freeBlocksCountLo = (s.fs.super .freeBlocksCountLo + (2 ^ 32 - 1)) % 2 ^ 32) := by
  have hgeo' : s'.fs.geometry = s₁.fs.geometry := by
    rw [hrest]
    rfl
  have hsuper : s'.fs.super .freeBlocksCountLo = s₁.fs.super .freeBlocksCountLo := by
    rw [hrest]
    rfl
  obtain ⟨hgeo, ⟨hno, hsame⟩ | ⟨hnone, hyes, hcount⟩⟩ := makeIndirect_count hfs hg hmake
  · refine ⟨hgeo'.trans hgeo, .inl ⟨?_, fun hneg => ⟨.inr (hno.imp And.left And.left), ?_⟩⟩⟩
    · rw [hsuper, hsame]
    · rw [hr hneg, hsame]
  · refine ⟨hgeo'.trans hgeo, .inr ⟨?_, hsuper.trans hcount⟩⟩
    rintro (hout | hsome | hno)
    · omega
    · exact hsome hnone
    · exact hyes hno

theorem setFileBlock_count (h : s.setFileBlock v fb d ino = (r, v', s')) :
    s'.fs.geometry = g ∧
      (s'.fs.super .freeBlocksCountLo = s.fs.super .freeBlocksCountLo ∧
        (r < 0 → s.MakesNoIndirect v fb ino ∧ s'.fs = s.fs) ∨
      ¬s.MakesNoIndirect v fb ino ∧
        s'.fs.super .freeBlocksCountLo = (s.fs.super .freeBlocksCountLo + (2 ^ 32 - 1)) % 2 ^ 32) := by
  cases setFileBlock_route h with
  | direct => exact ⟨hfs, .inl ⟨rfl, fun hneg => absurd hneg (by decide)⟩⟩
  | unreached hout hdir => exact ⟨hfs, .inl ⟨rfl, fun _ => ⟨.inl (by omega), rfl⟩⟩⟩
  | unmade hdir hin hmake => exact count_of_makeIndirect hfs hg hdir hin hmake rfl fun _ => rfl
  | unlinked hdir hin hmake _ _ hsame =>
    exact count_of_makeIndirect hfs hg hdir hin hmake (by rw [hsame]) fun _ => hsame
  | linked hdir hin hmake _ _ hput =>
    refine count_of_makeIndirect hfs hg hdir hin hmake ?_ fun hneg => absurd hneg (lt_irrefl 0)
    rw [hput]
    rfl

end

section
variable {r : ℤ} {s₁ : Ext4} {group index : ℕ} (hfs : s.fs.geometry = g) (hg : g.Sane)
include hfs hg

theorem freeBlock_bracket (hfree : s.fs.FreeBit .block group index)
    (hsame : Ext4Fs.SameRecords (s.fs.takeBit .block group index) s₁.fs)
    (h : s₁.freeBlock (g.blockAt group index) = (r, s')) :
    r = 0 ∧ Ext4Fs.SameRecords s.fs s'.fs ∨
      r ≠ 0 ∧ s'.fs.super .freeBlocksCountLo ≠ s.fs.super .freeBlocksCountLo := by
  have hgeo₁ : s₁.fs.geometry = g := by rw [hsame.geometry, Ext4Fs.geometry_takeBit, hfs]
  have hgroup : group < g.groupCount := hfs ▸ hfree.group_lt
  have hindex : index < g.blocksPerGroup := hfs ▸ hfree.index_lt
  rcases freeBlock_ends hgeo₁ hg (Geometry.inRange_blockAt hgroup hindex) h with
    ⟨hne, hkept⟩ | ⟨rfl, hdrop⟩
  · refine .inr ⟨hne, ?_⟩
    rw [hkept, hsame.super_eq]
    exact Ext4Fs.superFree_takeBit_ne s.fs .block group index
  · rw [Geometry.groupOf_blockAt hindex, Geometry.indexOf_blockAt hindex] at hdrop
    rw [hdrop]
    exact .inl ⟨rfl, hsame.dropBit (Ext4Fs.hasBitmaps (hfs ▸ hg)) hfree⟩

theorem freeInode_bracket (hfree : s.fs.FreeBit .inode group index)
    (hsame : Ext4Fs.SameRecords (s.fs.takeBit .inode group index) s₁.fs)
    (h : s₁.freeInode (group * g.inodesPerGroup + index + 1) = (r, s')) :
    r = 0 ∧ Ext4Fs.SameRecords s.fs s'.fs ∨
      r ≠ 0 ∧ s'.fs.super .freeInodesCount ≠ s.fs.super .freeInodesCount := by
  have hgeo₁ : s₁.fs.geometry = g := by rw [hsame.geometry, Ext4Fs.geometry_takeBit, hfs]
  have hper : s₁.fs.inodesPerGroup = g.inodesPerGroup := congrArg Geometry.inodesPerGroup hgeo₁
  have hindex : index < g.inodesPerGroup := hfs ▸ hfree.index_lt
  rw [freeInode, if_neg (Nat.succ_ne_zero _), Nat.add_sub_cancel, hper, Nat.mul_comm,
    Nat.mul_add_div hg.inodes_pos, Nat.div_eq_of_lt hindex, Nat.add_zero, Nat.mul_add_mod,
    Nat.mod_eq_of_lt hindex] at h
  obtain ⟨-, ⟨hkept, rfl⟩ | ⟨-, rfl, hdrop⟩⟩ := freeBit_eq h
  · refine .inr ⟨by decide, ?_⟩
    rw [hkept, hsame.super_eq]
    exact Ext4Fs.superFree_takeBit_ne s.fs .inode group index
  · rw [hdrop]
    exact .inl ⟨rfl, hsame.dropBit (Ext4Fs.hasBitmaps (hfs ▸ hg)) hfree⟩

end

section
variable {I L : Set ℕ} {D : Draft} {i dirIno ino fileType : ℕ} {v name : Bytes} {r : ℤ}
  (hs : Sound g L D) (hD : D.fs = s.fs) (hI : i ∈ I)
include hs hD hI

theorem appendDirBlock_fails (h : s.appendDirBlock dirIno v name ino fileType = (r, s')) (hr : r < 0) :
    (s.AppendUnwinds dirIno v name ino fileType ∧ Ext4Fs.SameRecords s.fs s'.fs ∧
        ∃ D', DraftEdits g I D D' ∧ D'.fs = s'.fs ∧ D'.inodes = D.inodes) ∨
      ¬s.AppendUnwinds dirIno v name ino fileType ∧
        s'.fs.super .freeBlocksCountLo ≠ s.fs.super .freeBlocksCountLo := by
  have hgeo := geometry_eq hs hD
  unfold appendDirBlock at h
  rcases halloc : s.allocBlock (s.inodeGroup dirIno) with ⟨n, s₁⟩
  rw [halloc] at h
  rw [AppendUnwinds, halloc]
  dsimp only at h ⊢
  rcases allocBlock_ends hgeo hs.sane halloc with
    ⟨hno, hneg, hsame⟩ | ⟨hyes, group, index, hfree, htake, hn⟩
  · rw [if_pos hneg] at h
    cases h
    exact .inl ⟨.inl hno, .of_eq hsame, D, .refl, hD.trans hsame.symm, rfl⟩
  rw [or_iff_right hyes]
  have htaken : s₁.fs.super .freeBlocksCountLo =
      (s.fs.super .freeBlocksCountLo + (2 ^ 32 - 1)) % 2 ^ 32 := by
    rw [htake]
    exact Ext4Fs.superFree_takeBit_self s.fs .block group index
  have hlt : s.fs.super .freeBlocksCountLo < 2 ^ 32 := Ext4Fs.superFree_lt s.fs .block
  by_cases hpos : n < 0
  · rw [if_pos hpos] at h
    cases h
    exact .inr ⟨fun hcond => absurd hpos (not_lt.mpr hcond.1), by omega⟩
  rw [if_neg hpos] at h
  obtain ⟨D₁, hmakes₁, -, -, hmem⟩ := allocBlock_makes hs hD hI halloc
  have hheld₁ := (hmem (not_lt.mp hpos)).1
  rw [(hn.resolve_left hpos).2] at h hheld₁ ⊢
  rw [and_iff_right (not_lt.mp hpos)]
  have hs₁ := hs.edits hmakes₁.edits
  rcases hwrite : s₁.writeBlockRaw (g.blockAt group index)
    (putEntry (fun _ => 0) 0 ino s₁.fs.blockSize fileType name) with ⟨ret, s₂⟩
  rw [hwrite] at h
  dsimp only at h ⊢
  obtain ⟨D₂, hmakes₂, -, hheld₂⟩ := writeBlockRaw_makes hs₁ hmakes₁.fs hI (.inl hheld₁) hwrite
  rw [← hheld₂] at hheld₁
  have hmakes₂ := hmakes₁.trans hmakes₂
  have hs₂ := hs.edits hmakes₂.edits
  have hgeo₂ := geometry_eq hs₂ hmakes₂.fs
  have hsame₂ : Ext4Fs.SameRecords (s.fs.takeBit .block group index) s₂.fs := by
    rw [← htake]
    rcases (writeBlockRaw_eq hwrite).2 with ⟨-, hsame, -⟩ | ⟨-, hput⟩
    · exact .of_eq hsame
    · rw [hput]
      apply Ext4Fs.SameRecords.putBlock_of_not_reserved
      rw [geometry_eq hs₁ hmakes₁.fs]
      exact (hs₂.held _ hheld₁).not_reserved
  -- the block is freed in a state with the same bitmaps
  have hfreed {s₃ s₄ : Ext4} {ret : ℤ} (hfs₃ : s₃.fs = s₂.fs)
      (hfree₃ : s₃.freeBlock (g.blockAt group index) = (ret, s₄)) :
      (ret = 0 ∧ Ext4Fs.SameRecords s.fs s₄.fs ∧
          ∃ D', DraftEdits g I D D' ∧ D'.fs = s₄.fs ∧ D'.inodes = D.inodes) ∨
        ret ≠ 0 ∧ s₄.fs.super .freeBlocksCountLo ≠ s.fs.super .freeBlocksCountLo := by
    obtain ⟨D₄, hmakes₄, -⟩ :=
      freeBlock_makes hs₂ (hmakes₂.fs.trans hfs₃.symm) hI hheld₁ hfree₃
    refine (freeBlock_bracket hgeo hs.sane hfree (hfs₃ ▸ hsame₂) hfree₃).imp_left fun hback => ?_
    exact ⟨hback.1, hback.2, D₄, Relation.ReflTransGen.trans hmakes₂.edits hmakes₄.edits, hmakes₄.fs,
      hmakes₄.inodes.trans hmakes₂.inodes⟩
  by_cases hret : ret < 0
  · rw [if_pos hret] at h ⊢
    cases h
    exact hfreed rfl rfl
  rw [if_neg hret] at h ⊢
  rcases hset : s₂.setFileBlock v (s.blocksIn (ext4Inode.get v 0 .sizeLo)) (g.blockAt group index)
    dirIno with ⟨ret', v₃, s₃⟩
  rw [hset] at h
  dsimp only at h ⊢
  have hcount₂ := hsame₂.super_eq .freeBlocksCountLo
  rw [← htake] at hcount₂
  obtain ⟨hgeo₃, hcount₃⟩ := setFileBlock_count hgeo₂ hs.sane hset
  by_cases hret' : ret' < 0
  · rw [if_pos hret'] at h
    rw [and_iff_right hret']
    cases h
    rcases hcount₃ with ⟨-, hsame₃⟩ | ⟨hind, hcount₃⟩
    · obtain ⟨hno, hfs₃⟩ := hsame₃ hret'
      rw [and_iff_right hno]
      exact hfreed hfs₃ rfl
    · refine .inr ⟨fun hcond => hind hcond.1, ?_⟩
      rcases hfree₃ : s₃.freeBlock (g.blockAt group index) with ⟨ret, s₄⟩
      rcases freeBlock_ends hgeo₃ hs.sane (hs₂.held _ hheld₁).inRange hfree₃ with
        ⟨-, hkept⟩ | ⟨-, hdrop⟩
      · dsimp only
        rw [hkept]
        omega
      · have hdropped : s₄.fs.super .freeBlocksCountLo =
            (s₃.fs.super .freeBlocksCountLo + 1) % 2 ^ 32 := by
          rw [hdrop]
          exact Ext4Fs.superFree_dropBit_self s₃.fs .block _ _
        dsimp only
        omega
  · refine .inr ⟨fun hcond => hret' hcond.1, ?_⟩
    rw [if_neg hret'] at h
    rcases (writeInode_eq hgeo₃ h).2 with ⟨-, hkept, -⟩ | ⟨rfl, -⟩
    · rw [hkept]
      rcases hcount₃ with ⟨hcount₃, -⟩ | ⟨-, hcount₃⟩ <;> omega
    · exact absurd hr (lt_irrefl 0)

theorem addDirEntry_fails (h : s.addDirEntry dirIno name ino fileType = (r, s')) (hr : r < 0) :
    (s.AddUnwinds dirIno name ino fileType ∧ Ext4Fs.SameRecords s.fs s'.fs ∧
        ∃ D', DraftEdits g I D D' ∧ D'.fs = s'.fs ∧ D'.inodes = D.inodes) ∨
      ¬s.AddUnwinds dirIno name ino fileType ∧
        s'.fs.super .freeBlocksCountLo ≠ s.fs.super .freeBlocksCountLo := by
  have hgeo := geometry_eq hs hD
  have hdone {s₁ : Ext4} (hfs₁ : s₁.fs = s.fs) : Ext4Fs.SameRecords s.fs s₁.fs ∧
      ∃ D', DraftEdits g I D D' ∧ D'.fs = s₁.fs ∧ D'.inodes = D.inodes :=
    ⟨.of_eq hfs₁, D, .refl, hD.trans hfs₁.symm, rfl⟩
  unfold addDirEntry at h
  unfold AddUnwinds
  rcases hread : s.readInode dirIno with ⟨v?, s₁⟩
  obtain ⟨hfs₁, -⟩ := readInode_eq hgeo hs.sane hread
  rw [hread] at h
  dsimp only at h ⊢
  cases v? with
  | none =>
    cases h
    exact .inl ⟨trivial, hdone hfs₁⟩
  | some v =>
    dsimp only at h ⊢
    rcases hkm : s₁.kmalloc with ⟨ok, s₂⟩
    have hfs₂ := (kmalloc_eq hkm).1.trans hfs₁
    rw [hkm] at h
    cases ok with
    | false =>
      cases h
      exact .inl ⟨trivial, hdone hfs₂⟩
    | true =>
      dsimp only at h ⊢
      rw [if_neg (by decide)] at h ⊢
      rcases hscan : scanDir v (entrySize (nameLength name))
        (List.range (s₂.blocksIn (ext4Inode.get v 0 .sizeLo))) s₂ with ⟨found, s₃⟩
      have hfs₃ := (scanDir_eq (hfs₂ ▸ hgeo) hscan).1.trans hfs₂
      rw [hscan] at h
      dsimp only at h ⊢
      cases found with
      | some x =>
        rcases (writeBlockRaw_eq h).2 with ⟨-, hsame, -⟩ | ⟨rfl, -⟩
        · exact .inl ⟨.inl rfl, hdone (hsame.trans hfs₃)⟩
        · exact absurd hr (lt_irrefl 0)
      | none =>
        rw [or_iff_right (a := (none : Option (ℕ × Bytes × ℕ)).isSome = true) (by simp)]
        have hends := appendDirBlock_fails hs (hD.trans hfs₃.symm) hI h hr
        rw [hfs₃] at hends
        exact hends

end

end Ext4

end GcAos.Fs
