import GcAos.Fs.Ext4Alloc

/-! `ext4_alloc_block` and `ext4_alloc_inode` against the bitmaps, and the calls that free what they
return. Both return an `int`. -/

namespace GcAos.Fs
open Lib

theorem toInt_lt (v : ℕ) : toInt v < 2 ^ 31 := by
  have h := @Int.bmod_lt v (2 ^ 32) (Nat.two_pow_pos 32)
  have hhalf : (((2 ^ 32 : ℕ) : ℤ) + 1) / 2 = 2 ^ 31 := by norm_num
  rwa [hhalf] at h

theorem Ext4Fs.hasBitmaps {fs : Ext4Fs} (hg : fs.geometry.Sane) : fs.HasBitmaps where
  apart k k' group group' hgroup hgroup' h := by
    rw [bitmap_eq_place rfl, bitmap_eq_place rfl] at h
    exact BitmapKind.area_injective (hg.apart _ _ (has_bitmap hgroup) (has_bitmap hgroup') h)
  fits _ := perGroup_le rfl hg

namespace Ext4

def TwoKmallocs (s : Ext4) : Prop := s.kmalloc.1 = true ∧ s.kmalloc.2.kmalloc.1 = true

variable {s : Ext4} {preferred group index b ino : ℕ}

/-! ## Blocks -/

/-- `b` was free and is now in use, and freeing it restores the file system. -/
structure BlockTaken (s s' : Ext4) (b : ℕ) : Prop where
  data_le : s.fs.super .firstDataBlock ≤ b
  took : s.fs.TookBit s'.fs .block (s.fs.geometry.groupOf b) (s.fs.geometry.indexOf b)
  freed : (s'.freeBlock b).1 = 0 ∧ (s'.freeBlock b).2.fs = s.fs

def HasFreeBlock (s : Ext4) : Prop :=
  ∃ group index, s.fs.freeCount .block group ≠ 0 ∧ s.fs.FreeBit .block group index

structure AllocatesBlock (s : Ext4) (preferred : ℕ) : Prop where
  succeeds : 0 ≤ (s.allocBlock preferred).1 →
    BlockTaken s (s.allocBlock preferred).2 (s.allocBlock preferred).1.toNat
  fails : (s.allocBlock preferred).1 < 0 →
    (s.allocBlock preferred).2.fs = s.fs ∧ ¬s.HasFreeBlock

theorem allocBlock_finds (preferred : ℕ) (hios : s.ios = []) :
    ((s.allocBlock preferred).1 = -1 ∧ (s.allocBlock preferred).2.fs = s.fs ∧ (s.kmalloc.1 = true →
      ∀ n < s.fs.groupCount, ∀ i, ¬s.fs.Seen .block (s.fs.turnGroup preferred n) i)) ∨
    s.kmalloc.1 = true ∧ ∃ group index, s.fs.Finds .block preferred group index ∧
      s.allocBlock preferred = (toInt (s.fs.geometry.blockAt group index),
        { s.kmalloc.2 with fs := s.fs.takeBit .block group index }) := by
  unfold allocBlock
  rcases hbit : s.allocBit .block preferred with ⟨r, s'⟩
  rcases allocBit_finds hios hbit with ⟨rfl, rfl, hnone⟩ | ⟨hok, group, index, rfl, rfl, hfinds⟩
  · exact .inl ⟨rfl, rfl, hnone⟩
  · refine .inr ⟨hok, group, index, hfinds, ?_⟩
    have hgeo : (s.fs.takeBit .block group index).geometry = s.fs.geometry := Ext4Fs.geometry_takeBit
    rw [← hgeo]
    rfl

theorem freeBlock_eq_freeBit (hdata : s.fs.super .firstDataBlock ≤ b)
    (hgroup : s.fs.geometry.groupOf b < 2 ^ 32) :
    s.freeBlock b = s.freeBit .block (s.fs.geometry.groupOf b) (s.fs.geometry.indexOf b) := by
  have hmod : (b - s.fs.super .firstDataBlock) / s.fs.blocksPerGroup % 2 ^ 32 =
      s.fs.geometry.groupOf b := Nat.mod_eq_of_lt hgroup
  unfold freeBlock
  rw [if_neg (not_lt.mpr hdata)]
  dsimp only
  rw [hmod]
  rfl

theorem freeBlock_taken (hb : s.fs.HasBitmaps) (hios : s.ios = [])
    (hfree : s.fs.FreeBit .block group index) (hlt : s.fs.geometry.blockAt group index < 2 ^ 31) :
    (Ext4.freeBlock { s.kmalloc.2 with fs := s.fs.takeBit .block group index }
      (s.fs.geometry.blockAt group index)).1 = 0 ∧
    (Ext4.freeBlock { s.kmalloc.2 with fs := s.fs.takeBit .block group index }
      (s.fs.geometry.blockAt group index)).2.fs = s.fs ↔ s.kmalloc.2.kmalloc.1 = true := by
  obtain ⟨s', hs'⟩ : ∃ s' : Ext4,
      s' = { s.kmalloc.2 with fs := s.fs.takeBit .block group index } := ⟨_, rfl⟩
  have hgeo : s'.fs.geometry = s.fs.geometry := by
    rw [hs']
    exact Ext4Fs.geometry_takeBit
  have hkm : s'.kmalloc.1 = s.kmalloc.2.kmalloc.1 := by
    rw [hs']
    rfl
  have hindex : index < s.fs.geometry.blocksPerGroup := hfree.index_lt
  have hpos : 0 < s.fs.geometry.blocksPerGroup := Nat.zero_lt_of_lt hindex
  have hgroup : group < 2 ^ 32 := by
    have hmul := Nat.le_mul_of_pos_right group hpos
    unfold Geometry.blockAt at hlt
    omega
  have hfirst : s'.fs.super .firstDataBlock = s.fs.geometry.firstDataBlock :=
    congrArg Geometry.firstDataBlock hgeo
  have hfind : s'.fs.geometry.groupOf (s.fs.geometry.blockAt group index) = group := by
    rw [hgeo, Geometry.groupOf_blockAt hindex]
  have hbit : s'.freeBlock (s.fs.geometry.blockAt group index) = s'.freeBit .block group index := by
    rw [freeBlock_eq_freeBit, hfind, hgeo, Geometry.indexOf_blockAt hindex]
    · rw [hfirst, Geometry.blockAt, Nat.add_assoc]
      exact Nat.le_add_right _ _
    · rw [hfind]
      exact hgroup
  rw [← hs', hbit, freeBit_quiet (by rw [hs']; exact hios) (by rw [hs']; exact hfree.group_lt), hkm]
  have hfs : s'.fs.dropBit .block group index = s.fs := by
    rw [hs']
    exact Ext4Fs.dropBit_takeBit (hfree.index_lt.trans_le (hb.fits .block)) hfree.clear
  cases hok : s.kmalloc.2.kmalloc.1 with
  | false => exact iff_of_false (fun h => by simp at h) (by decide)
  | true => exact iff_of_true ⟨by simp, by rw [if_pos rfl]; exact hfs⟩ rfl

/-- `ext4_alloc_block` does what it should just when no block is free, or there is memory and the
first free block in the order of the search has a number below 2^31. -/
theorem alloc_block_iff (hb : s.fs.HasBitmaps) (hios : s.ios = []) (preferred : ℕ) :
    AllocatesBlock s preferred ↔ ¬s.HasFreeBlock ∨ s.TwoKmallocs ∧
      ∃ group index, s.fs.Finds .block preferred group index ∧
        s.fs.geometry.blockAt group index < 2 ^ 31 := by
  constructor
  · intro h
    by_contra hcond
    obtain ⟨hfree, hcond⟩ := not_or.mp hcond
    rw [not_not] at hfree
    rcases allocBlock_finds preferred hios with
      ⟨hret, -, -⟩ | ⟨hok, group, index, hfinds, hcall⟩
    · exact (h.fails (by rw [hret]; decide)).2 hfree
    · have htook := hb.tookBit hfinds.seen.toFreeBit
      have hret : (s.allocBlock preferred).1 = toInt (s.fs.geometry.blockAt group index) := by
        rw [hcall]
      rcases lt_or_ge (toInt (s.fs.geometry.blockAt group index)) 0 with hneg | hpos
      · have hsame := (h.fails (hret.trans_lt hneg)).1
        rw [hcall] at hsame
        exact htook.ne hsame
      · have htaken := h.succeeds (hpos.trans_eq hret.symm)
        rw [hcall] at htaken
        obtain ⟨b, hb'⟩ : ∃ b, b = (toInt (s.fs.geometry.blockAt group index)).toNat := ⟨_, rfl⟩
        dsimp only at htaken
        rw [← hb'] at htaken
        -- only one bit has changed, so the number returned is the one of that bit
        obtain ⟨hg, hi⟩ := htook.unique htaken.took
        have hat : s.fs.geometry.blockAt group index = b := by
          have hdiv := Nat.div_add_mod' (b - s.fs.geometry.firstDataBlock)
            s.fs.geometry.blocksPerGroup
          have hdata : s.fs.geometry.firstDataBlock ≤ b := htaken.data_le
          rw [hg, hi, Geometry.blockAt, Geometry.groupOf, Geometry.indexOf]
          omega
        have hlt : s.fs.geometry.blockAt group index < 2 ^ 31 := by
          have := toInt_lt (s.fs.geometry.blockAt group index)
          omega
        refine hcond ⟨⟨hok, ?_⟩, group, index, hfinds, hlt⟩
        have hfreed := htaken.freed
        rw [← hat] at hfreed
        exact (freeBlock_taken hb hios hfinds.seen.toFreeBit hlt).mp hfreed
  · rintro (hnone | ⟨⟨hok, hok'⟩, group, index, hfinds, hlt⟩)
    · rcases allocBlock_finds preferred hios with
        ⟨hret, hsame, -⟩ | ⟨-, group, index, hfinds, -⟩
      · exact ⟨fun hpos => absurd (hret ▸ hpos) (by decide), fun _ => ⟨hsame, hnone⟩⟩
      · exact absurd ⟨group, index, hfinds.seen.counted, hfinds.seen.toFreeBit⟩ hnone
    · rcases allocBlock_finds preferred hios with
        ⟨-, -, hnone⟩ | ⟨-, group', index', hfinds', hcall⟩
      · obtain ⟨n, hn, hturn, -⟩ := hfinds.turn
        exact absurd (hturn ▸ hfinds.seen) (hnone hok n hn index)
      · obtain ⟨rfl, rfl⟩ := hfinds.unique hfinds'
        rw [toInt_of_lt hlt] at hcall
        have hfree := hfinds.seen.toFreeBit
        have hindex : index < s.fs.geometry.blocksPerGroup := hfree.index_lt
        refine ⟨fun _ => ?_, fun hneg => ?_⟩
        · rw [hcall, Int.toNat_natCast]
          refine ⟨?_, ?_, (freeBlock_taken hb hios hfree hlt).mpr hok'⟩
          · exact (Nat.le_add_right _ _).trans (Nat.le_add_right _ _)
          · rw [Geometry.groupOf_blockAt hindex, Geometry.indexOf_blockAt hindex]
            exact hb.tookBit hfree
        · rw [hcall] at hneg
          exact absurd hneg (not_lt.mpr (Int.natCast_nonneg _))

theorem alloc_block_sample : AllocatesBlock sample 0 := by
  refine (alloc_block_iff (Ext4Fs.hasBitmaps sampleFs_sane) rfl 0).mpr (.inr ⟨⟨rfl, rfl⟩, 0, 6, ?_, ?_⟩)
  · refine ⟨⟨⟨by decide, by decide, by decide +kernel⟩, by decide +kernel, by decide⟩, ?_, 0, ?_⟩
    · decide +kernel
    · exact ⟨by decide, by decide, fun m hm => absurd hm (Nat.not_lt_zero m)⟩
  · decide +kernel

def large : Ext4 where
  fs :=
    { sb := fun _ => 0
      blockSize := 65536
      blocksPerGroup := 2 ^ 19
      inodesPerGroup := 16
      inodeSize := 128
      groupCount := 8192
      descSize := 32
      groupDescs := fun group => ext4GroupDesc.set (ext4GroupDesc.set (ext4GroupDesc.set (fun _ => 0)
        0 .freeBlocksCountLo 1) 0 .blockBitmapLo (2 * group + 1)) 0 .inodeBitmapLo (2 * group + 2)
      device := fun _ _ => 0 }
  kmallocs := []
  ios := []

theorem large_hasBitmaps : large.fs.HasBitmaps := by
  have hplace : ∀ k group, group < 8192 → BitmapKind.bitmap k large.fs group =
      2 * group + if k = .block then 1 else 2 := by
    intro k group hgroup
    have hin : ¬large.fs.groupCount ≤ group := not_le.mpr hgroup
    have hsize : ¬64 ≤ large.fs.descSize := by decide
    cases k with
    | block =>
      show large.fs.getBlockBitmap group = 2 * group + 1
      rw [Ext4Fs.getBlockBitmap, if_neg hin, Ext4Fs.desc64, if_neg hsize, Ext4Fs.desc]
      refine (Layout.get_set_of_field_ne (by decide)).trans (Layout.get_set_self.trans ?_)
      exact Nat.mod_eq_of_lt (show 2 * group + 1 < 2 ^ 32 by omega)
    | inode =>
      show large.fs.getInodeBitmap group = 2 * group + 2
      rw [Ext4Fs.getInodeBitmap, if_neg hin, Ext4Fs.desc64, if_neg hsize, Ext4Fs.desc]
      refine Layout.get_set_self.trans ?_
      exact Nat.mod_eq_of_lt (show 2 * group + 2 < 2 ^ 32 by omega)
  refine ⟨fun k k' group group' hgroup hgroup' heq => ?_, fun k => ?_⟩
  · rw [hplace k group hgroup, hplace k' group' hgroup'] at heq
    cases k <;> cases k' <;> simp at heq ⊢ <;> omega
  · cases k <;> decide

/-- In the group 4096 the first block is number 2^31: it is taken, and the number returned is
negative. -/
theorem alloc_block_returns_negative :
    large.fs.HasBitmaps ∧ large.ios = [] ∧ large.kmallocs = [] ∧
      large.fs.groupCount * large.fs.blocksPerGroup = 2 ^ 32 ∧ ¬AllocatesBlock large 4096 := by
  refine ⟨large_hasBitmaps, rfl, rfl, by decide, fun h => ?_⟩
  have hcall : (large.allocBlock 4096).1 < 0 ∧
      ((large.allocBlock 4096).2.fs.device 8193).bit 0 = true := by decide +kernel
  obtain ⟨hret, hset⟩ := hcall
  rw [(h.fails hret).1] at hset
  exact absurd hset (by decide)

/-! ## Inodes -/

/-- The inode `ino` was free and is now in use, and freeing it restores the file system. -/
structure InodeTaken (s s' : Ext4) (ino : ℕ) : Prop where
  took : s.fs.TookBit s'.fs .inode ((ino - 1) / s.fs.inodesPerGroup) ((ino - 1) % s.fs.inodesPerGroup)
  freed : (s'.freeInode ino).1 = 0 ∧ (s'.freeInode ino).2.fs = s.fs

def HasFreeInode (s : Ext4) : Prop := ∃ group index, s.fs.FreeBit .inode group index

structure AllocatesInode (s : Ext4) (preferred : ℕ) : Prop where
  complete : s.HasFreeInode → 0 < (s.allocInode preferred).1
  taken : 0 < (s.allocInode preferred).1 →
    InodeTaken s (s.allocInode preferred).2 (s.allocInode preferred).1.toNat

theorem allocInode_finds (preferred : ℕ) (hios : s.ios = []) :
    ((s.allocInode preferred).1 = -1 ∧ (s.kmalloc.1 = true →
      ∀ n < s.fs.groupCount, ∀ i, ¬s.fs.Seen .inode (s.fs.turnGroup preferred n) i)) ∨
    s.kmalloc.1 = true ∧ ∃ group index, s.fs.Finds .inode preferred group index ∧
      s.allocInode preferred = (toInt (group * s.fs.inodesPerGroup + index + 1),
        { s.kmalloc.2 with fs := s.fs.takeBit .inode group index }) := by
  unfold allocInode
  rcases hbit : s.allocBit .inode preferred with ⟨r, s'⟩
  rcases allocBit_finds hios hbit with ⟨rfl, rfl, hnone⟩ | ⟨hok, group, index, rfl, rfl, hfinds⟩
  · exact .inl ⟨rfl, hnone⟩
  · exact .inr ⟨hok, group, index, hfinds, rfl⟩

theorem freeInode_taken (hb : s.fs.HasBitmaps) (hios : s.ios = [])
    (hfree : s.fs.FreeBit .inode group index) :
    (Ext4.freeInode { s.kmalloc.2 with fs := s.fs.takeBit .inode group index }
      (group * s.fs.inodesPerGroup + index + 1)).1 = 0 ∧
    (Ext4.freeInode { s.kmalloc.2 with fs := s.fs.takeBit .inode group index }
      (group * s.fs.inodesPerGroup + index + 1)).2.fs = s.fs ↔ s.kmalloc.2.kmalloc.1 = true := by
  obtain ⟨s', hs'⟩ : ∃ s' : Ext4,
      s' = { s.kmalloc.2 with fs := s.fs.takeBit .inode group index } := ⟨_, rfl⟩
  have hkm : s'.kmalloc.1 = s.kmalloc.2.kmalloc.1 := by
    rw [hs']
    rfl
  have hper : s'.fs.inodesPerGroup = s.fs.inodesPerGroup := by
    rw [hs']
    rfl
  have hindex : index < s.fs.inodesPerGroup := hfree.index_lt
  have hbit : s'.freeInode (group * s.fs.inodesPerGroup + index + 1) =
      s'.freeBit .inode group index := by
    rw [freeInode, if_neg (Nat.succ_ne_zero _), hper, Nat.add_sub_cancel,
      Nat.mul_comm group, Nat.mul_add_div (Nat.zero_lt_of_lt hindex), Nat.div_eq_of_lt hindex,
      Nat.add_zero, Nat.mul_add_mod, Nat.mod_eq_of_lt hindex]
  rw [← hs', hbit, freeBit_quiet (by rw [hs']; exact hios) (by rw [hs']; exact hfree.group_lt), hkm]
  have hfs : s'.fs.dropBit .inode group index = s.fs := by
    rw [hs']
    exact Ext4Fs.dropBit_takeBit (hfree.index_lt.trans_le (hb.fits .inode)) hfree.clear
  cases hok : s.kmalloc.2.kmalloc.1 with
  | false => exact iff_of_false (fun h => by simp at h) (by decide)
  | true => exact iff_of_true ⟨by simp, by rw [if_pos rfl]; exact hfs⟩ rfl

/-- `ext4_alloc_inode` does what it should just when no inode is free, or there is memory and the
search, which looks at whole bytes only, finds an inode with a number below 2^31. -/
theorem alloc_inode_iff (hb : s.fs.HasBitmaps) (hios : s.ios = []) (preferred : ℕ) :
    AllocatesInode s preferred ↔ ¬s.HasFreeInode ∨ s.TwoKmallocs ∧
      ∃ group index, s.fs.Finds .inode preferred group index ∧
        group * s.fs.inodesPerGroup + index + 1 < 2 ^ 31 := by
  constructor
  · intro h
    by_contra hcond
    obtain ⟨hfree, hcond⟩ := not_or.mp hcond
    rw [not_not] at hfree
    have hpos := h.complete hfree
    rcases allocInode_finds preferred hios with
      ⟨hret, -⟩ | ⟨hok, group, index, hfinds, hcall⟩
    · rw [hret] at hpos
      exact absurd hpos (by decide)
    · have htook := hb.tookBit hfinds.seen.toFreeBit
      have htaken := h.taken hpos
      have hret : (s.allocInode preferred).1 =
          toInt (group * s.fs.inodesPerGroup + index + 1) := by rw [hcall]
      rw [hret] at hpos
      rw [hcall] at htaken
      obtain ⟨ino, hino⟩ : ∃ ino, ino = (toInt (group * s.fs.inodesPerGroup + index + 1)).toNat :=
        ⟨_, rfl⟩
      dsimp only at htaken
      rw [← hino] at htaken
      obtain ⟨hg, hi⟩ := htook.unique htaken.took
      have hat : group * s.fs.inodesPerGroup + index + 1 = ino := by
        have hdiv := Nat.div_add_mod' (ino - 1) s.fs.inodesPerGroup
        rw [hg, hi]
        omega
      have hlt : group * s.fs.inodesPerGroup + index + 1 < 2 ^ 31 := by
        have := toInt_lt (group * s.fs.inodesPerGroup + index + 1)
        omega
      refine hcond ⟨⟨hok, ?_⟩, group, index, hfinds, hlt⟩
      have hfreed := htaken.freed
      rw [← hat] at hfreed
      exact (freeInode_taken hb hios hfinds.seen.toFreeBit).mp hfreed
  · rintro (hnone | ⟨⟨hok, hok'⟩, group, index, hfinds, hlt⟩)
    · refine ⟨fun hfree => absurd hfree hnone, fun hpos => ?_⟩
      rcases allocInode_finds preferred hios with ⟨hret, -⟩ | ⟨-, group, index, hfinds, -⟩
      · rw [hret] at hpos
        exact absurd hpos (by decide)
      · exact absurd ⟨group, index, hfinds.seen.toFreeBit⟩ hnone
    · rcases allocInode_finds preferred hios with
        ⟨-, hnone⟩ | ⟨-, group', index', hfinds', hcall⟩
      · obtain ⟨n, hn, hturn, -⟩ := hfinds.turn
        exact absurd (hturn ▸ hfinds.seen) (hnone hok n hn index)
      · obtain ⟨rfl, rfl⟩ := hfinds.unique hfinds'
        rw [toInt_of_lt hlt] at hcall
        have hfree := hfinds.seen.toFreeBit
        have hindex : index < s.fs.inodesPerGroup := hfree.index_lt
        refine ⟨fun _ => ?_, fun _ => ?_⟩
        · rw [hcall]
          dsimp only
          exact Int.natCast_pos.mpr (Nat.succ_pos _)
        · rw [hcall, Int.toNat_natCast]
          refine ⟨?_, (freeInode_taken hb hios hfree).mpr hok'⟩
          rw [Nat.add_sub_cancel, Nat.mul_comm group, Nat.mul_add_div (Nat.zero_lt_of_lt hindex),
            Nat.div_eq_of_lt hindex, Nat.add_zero, Nat.mul_add_mod, Nat.mod_eq_of_lt hindex]
          exact hb.tookBit hfree

theorem alloc_inode_sample : AllocatesInode sample 0 := by
  refine (alloc_inode_iff (Ext4Fs.hasBitmaps sampleFs_sane) rfl 0).mpr (.inr ⟨⟨rfl, rfl⟩, 0, 2, ?_, ?_⟩)
  · refine ⟨⟨⟨by decide, by decide, by decide +kernel⟩, by decide +kernel, by decide⟩, ?_, 0, ?_⟩
    · decide +kernel
    · exact ⟨by decide, by decide, fun m hm => absurd hm (Nat.not_lt_zero m)⟩
  · decide +kernel

def dozen : Ext4 where
  fs :=
    { sampleFs with
      inodesPerGroup := 12
      groupDescs := fun _ => ext4GroupDesc.set sampleDesc 0 .freeInodesCountLo 4
      device := fun b i => if b = 4 ∧ i = 0 then 0xFF else sampleDevice b i }
  kmallocs := []
  ios := []

theorem dozen_hasBitmaps : dozen.fs.HasBitmaps := by
  have hblock : BitmapKind.bitmap .block dozen.fs 0 = 3 := by decide +kernel
  have hinode : BitmapKind.bitmap .inode dozen.fs 0 = 4 := by decide +kernel
  refine ⟨fun k k' group group' hgroup hgroup' heq => ?_, fun k => by cases k <;> decide⟩
  obtain rfl : group = 0 := Nat.lt_one_iff.mp hgroup
  obtain rfl : group' = 0 := Nat.lt_one_iff.mp hgroup'
  cases k <;> cases k' <;> simp [hblock, hinode] at heq ⊢

theorem alloc_inode_misses : dozen.fs.HasBitmaps ∧ dozen.ios = [] ∧ dozen.kmallocs = [] ∧
    (∀ group < dozen.fs.groupCount, dozen.fs.freeCount .inode group = dozen.fs.clearBits .inode group) ∧
      ¬AllocatesInode dozen 0 := by
  refine ⟨dozen_hasBitmaps, rfl, rfl, fun group hgroup => ?_, fun h => ?_⟩
  · obtain rfl : group = 0 := Nat.lt_one_iff.mp hgroup
    decide +kernel
  · have hfree : dozen.HasFreeInode := ⟨0, 8, by decide, by decide, by decide +kernel⟩
    exact absurd (h.complete hfree) (by decide +kernel)

end Ext4

end GcAos.Fs
