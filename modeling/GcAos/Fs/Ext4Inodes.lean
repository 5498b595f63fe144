import GcAos.Fs.Ext4Mount

/-! The inodes in their tables: `ext4_read_inode` after `ext4_write_inode`. -/

namespace GcAos.Fs
open Lib Ext4

namespace Ext4Fs

variable {fs : Ext4Fs} {ino ino' : ℕ} {v : Bytes}

/-- What `ext4_read_inode` reads when memory and device do not fail. -/
def inodeAt (fs : Ext4Fs) (ino : ℕ) : Option Bytes := (readInode ⟨fs, [], []⟩ ino).1

/-- What `ext4_write_inode` returns and leaves when memory and device do not fail. -/
def withInode (fs : Ext4Fs) (ino : ℕ) (inode : Bytes) : ℤ × Ext4Fs :=
  ((writeInode ⟨fs, [], []⟩ ino inode).1, (writeInode ⟨fs, [], []⟩ ino inode).2.fs)

def HasIno (fs : Ext4Fs) (ino : ℕ) : Prop :=
  0 < ino ∧ ino ≤ fs.groupCount * fs.inodesPerGroup ∧ ino < 2 ^ 32

def InTable (fs : Ext4Fs) (group b : ℕ) : Prop :=
  ∃ j, j * fs.blockSize < fs.inodesPerGroup * fs.inodeSize ∧ b = fs.inodeTable group + j

/-- The geometry is that of a mount, an inode fits its place in the table, and no block is in the tables
of two groups. -/
structure InodeTables (fs : Ext4Fs) : Prop where
  parameters : fs.parameters = fs
  mountable : Mountable fs
  inodeSize_dvd : fs.inodeSize ∣ fs.blockSize
  inodeSize_le : ext4Inode.size ≤ fs.inodeSize
  apart : ∀ group < fs.groupCount, ∀ group' < fs.groupCount, ∀ b,
    fs.InTable group b → fs.InTable group' b → group = group'

end Ext4Fs

/-- The same inode, as far as `struct ext4_inode` goes. -/
def SameInode (v w : Bytes) : Prop := ∀ k < ext4Inode.size, v k = w k

structure InodeLens (fs : Ext4Fs) (ino : ℕ) (v : Bytes) : Prop where
  succeeds : (fs.withInode ino v).1 = 0
  read_self : ∃ w ∈ (fs.withInode ino v).2.inodeAt ino, SameInode w v
  read_other : ∀ ino', fs.HasIno ino' → ino' ≠ ino →
    ∃ w ∈ fs.inodeAt ino', ∃ w' ∈ (fs.withInode ino v).2.inodeAt ino', SameInode w' w
  frame : ∀ b, ¬fs.InTable ((ino - 1) / fs.inodesPerGroup) b →
    (fs.withInode ino v).2.device b = fs.device b

namespace Ext4Fs

variable {fs : Ext4Fs} {ino ino' : ℕ} {v : Bytes}

/-- The byte of the table where the inode starts, as the 32-bit product has it. -/
def inodeStart (fs : Ext4Fs) (ino : ℕ) : ℕ := (ino - 1) % fs.inodesPerGroup * fs.inodeSize % 2 ^ 32

theorem HasIno.inodes_pos (h : fs.HasIno ino) : 0 < fs.inodesPerGroup := by
  obtain ⟨hpos, hle, -⟩ := h
  exact Nat.pos_of_mul_pos_left (hpos.trans_le hle)

theorem HasIno.group_lt (h : fs.HasIno ino) : (ino - 1) / fs.inodesPerGroup < fs.groupCount := by
  rw [Nat.div_lt_iff_lt_mul h.inodes_pos]
  have := h.1
  have := h.2.1
  omega

theorem inodeAt_eq (h : fs.HasIno ino) :
    fs.inodeAt ino = some fun k => fs.device (fs.inodeBlock ino) (fs.inodeOffset ino + k) := by
  rw [inodeAt, readInode, if_neg h.1.ne', if_neg (not_le.mpr h.group_lt)]
  rfl

theorem withInode_eq (h : fs.HasIno ino) (v : Bytes) : fs.withInode ino v = (0, fs.putInode ino v) := by
  rw [withInode, writeInode, if_neg h.1.ne', if_neg (not_le.mpr h.group_lt)]
  rfl

namespace InodeTables

theorem inodeSize_pos (h : fs.InodeTables) : 0 < fs.inodeSize :=
  Nat.lt_of_lt_of_le (by decide) h.inodeSize_le

theorem blockSize_dvd (h : fs.InodeTables) : 0 < fs.blockSize ∧ fs.blockSize ∣ 2 ^ 32 := by
  have hpos : fs.blockSize ≠ 0 := by
    intro hzero
    have hgd := h.mountable.gdPerBlock
    rw [h.parameters, gdPerBlock, hzero, Nat.zero_div] at hgd
    exact hgd rfl
  have heq : fs.blockSize = 1024 * 2 ^ fs.super .logBlockSize % 2 ^ 32 :=
    (congrArg Ext4Fs.blockSize h.parameters).symm
  have hpow : 1024 * 2 ^ fs.super .logBlockSize = 2 ^ (10 + fs.super .logBlockSize) := by
    rw [Nat.pow_add]
  rw [hpow] at heq
  refine ⟨Nat.pos_of_ne_zero hpos, ?_⟩
  rcases Nat.lt_or_ge (10 + fs.super .logBlockSize) 32 with hlt | hge
  · rw [heq, Nat.mod_eq_of_lt (Nat.pow_lt_pow_right (by decide) hlt)]
    exact Nat.pow_dvd_pow 2 hlt.le
  · rw [Nat.mod_eq_zero_of_dvd (Nat.pow_dvd_pow 2 hge)] at heq
    exact absurd heq hpos

theorem inodesPerGroup_lt (h : fs.InodeTables) : fs.inodesPerGroup < 2 ^ 32 := by
  have heq : fs.inodesPerGroup = fs.super .inodesPerGroup :=
    (congrArg Ext4Fs.inodesPerGroup h.parameters).symm
  rw [heq]
  exact Layout.get_lt

theorem offset_spec (h : fs.InodeTables) (ino : ℕ) :
    fs.inodeSize ∣ fs.inodeOffset ino ∧ fs.inodeOffset ino + fs.inodeSize ≤ fs.blockSize := by
  obtain ⟨hpos, hdvd⟩ := h.blockSize_dvd
  have hstart : fs.inodeSize ∣ fs.inodeStart ino :=
    (Nat.dvd_mod_iff (h.inodeSize_dvd.trans hdvd)).mpr (Nat.dvd_mul_left ..)
  have hoff : fs.inodeSize ∣ fs.inodeOffset ino := (Nat.dvd_mod_iff h.inodeSize_dvd).mpr hstart
  have hlt : fs.inodeOffset ino < fs.blockSize := Nat.mod_lt _ hpos
  refine ⟨hoff, ?_⟩
  obtain ⟨q, hq⟩ := h.inodeSize_dvd
  obtain ⟨p, hp⟩ := hoff
  rw [hp, hq] at hlt ⊢
  rw [← Nat.mul_succ]
  exact Nat.mul_le_mul_left _ (Nat.lt_of_mul_lt_mul_left hlt)

theorem inTable (h : fs.InodeTables) (hino : fs.HasIno ino) :
    fs.InTable ((ino - 1) / fs.inodesPerGroup) (fs.inodeBlock ino) := by
  refine ⟨fs.inodeStart ino / fs.blockSize, ?_, rfl⟩
  calc fs.inodeStart ino / fs.blockSize * fs.blockSize
      ≤ fs.inodeStart ino := Nat.div_mul_le_self ..
    _ ≤ (ino - 1) % fs.inodesPerGroup * fs.inodeSize := Nat.mod_le ..
    _ < fs.inodesPerGroup * fs.inodeSize :=
      Nat.mul_lt_mul_of_pos_right (Nat.mod_lt _ hino.inodes_pos) h.inodeSize_pos

theorem device_putInode (h : fs.InodeTables) (ino : ℕ) (v : Bytes) :
    (fs.putInode ino v).device = Function.update fs.device (fs.inodeBlock ino)
      ((fs.device (fs.inodeBlock ino)).blit (fs.inodeOffset ino) ext4Inode.size v) := by
  refine device_putBlock fun i hi => Bytes.blit_of_le ?_
  have := (h.offset_spec ino).2
  have := h.inodeSize_le
  omega

theorem read_of_ne (h : fs.InodeTables) {k : ℕ} (hk : k < ext4Inode.size)
    (hne : fs.inodeBlock ino' = fs.inodeBlock ino → fs.inodeOffset ino' ≠ fs.inodeOffset ino) :
    (fs.putInode ino v).device (fs.inodeBlock ino') (fs.inodeOffset ino' + k) =
      fs.device (fs.inodeBlock ino') (fs.inodeOffset ino' + k) := by
  rw [h.device_putInode]
  by_cases hblock : fs.inodeBlock ino' = fs.inodeBlock ino
  · rw [hblock, Function.update_self]
    obtain ⟨p, hp⟩ := (h.offset_spec ino).1
    obtain ⟨p', hp'⟩ := (h.offset_spec ino').1
    have hsize := h.inodeSize_le
    rcases Nat.lt_or_gt_of_ne (hne hblock) with hlt | hgt
    · rw [hp, hp'] at hlt
      have hmul := Nat.mul_le_mul_left fs.inodeSize (Nat.lt_of_mul_lt_mul_left hlt)
      rw [Nat.mul_succ] at hmul
      exact Bytes.blit_of_lt (by omega)
    · rw [hp, hp'] at hgt
      have hmul := Nat.mul_le_mul_left fs.inodeSize (Nat.lt_of_mul_lt_mul_left hgt)
      rw [Nat.mul_succ] at hmul
      exact Bytes.blit_of_le (by omega)
  · rw [Function.update_of_ne hblock]

theorem read_of_eq (h : fs.InodeTables) {k : ℕ} (hk : k < ext4Inode.size)
    (hblock : fs.inodeBlock ino' = fs.inodeBlock ino) (hoff : fs.inodeOffset ino' = fs.inodeOffset ino) :
    (fs.putInode ino v).device (fs.inodeBlock ino') (fs.inodeOffset ino' + k) = v k := by
  rw [h.device_putInode, hblock, hoff, Function.update_self]
  exact Bytes.blit_of_mem hk

theorem start_eq (h : fs.InodeTables) (hino : fs.HasIno ino) (hino' : fs.HasIno ino')
    (hblock : fs.inodeBlock ino' = fs.inodeBlock ino) (hoff : fs.inodeOffset ino' = fs.inodeOffset ino) :
    (ino' - 1) / fs.inodesPerGroup = (ino - 1) / fs.inodesPerGroup ∧
      fs.inodeStart ino' = fs.inodeStart ino := by
  have hgroup : (ino' - 1) / fs.inodesPerGroup = (ino - 1) / fs.inodesPerGroup := by
    refine h.apart _ hino'.group_lt _ hino.group_lt _ (h.inTable hino') ?_
    rw [hblock]
    exact h.inTable hino
  refine ⟨hgroup, ?_⟩
  have hdiv : fs.inodeStart ino' / fs.blockSize = fs.inodeStart ino / fs.blockSize := by
    have hsum : fs.inodeTable ((ino' - 1) / fs.inodesPerGroup) + fs.inodeStart ino' / fs.blockSize =
        fs.inodeTable ((ino - 1) / fs.inodesPerGroup) + fs.inodeStart ino / fs.blockSize := hblock
    rw [hgroup] at hsum
    exact Nat.add_left_cancel hsum
  have hmod : fs.inodeStart ino' % fs.blockSize = fs.inodeStart ino % fs.blockSize := hoff
  rw [← Nat.div_add_mod (fs.inodeStart ino') fs.blockSize, hdiv, hmod, Nat.div_add_mod]

theorem place_ne (h : fs.InodeTables) (hfit : fs.inodesPerGroup * fs.inodeSize ≤ 2 ^ 32)
    (hino : fs.HasIno ino) (hino' : fs.HasIno ino') (hne : ino' ≠ ino)
    (hblock : fs.inodeBlock ino' = fs.inodeBlock ino) :
    fs.inodeOffset ino' ≠ fs.inodeOffset ino := by
  intro hoff
  obtain ⟨hgroup, hstart⟩ := h.start_eq hino hino' hblock hoff
  have hlt (n : ℕ) : n % fs.inodesPerGroup * fs.inodeSize < 2 ^ 32 :=
    (Nat.mul_lt_mul_of_pos_right (Nat.mod_lt n hino.inodes_pos) h.inodeSize_pos).trans_le hfit
  rw [inodeStart, inodeStart, Nat.mod_eq_of_lt (hlt _), Nat.mod_eq_of_lt (hlt _)] at hstart
  have hmod := Nat.eq_of_mul_eq_mul_right h.inodeSize_pos hstart
  have h₁ := Nat.div_add_mod (ino - 1) fs.inodesPerGroup
  have h₂ := Nat.div_add_mod (ino' - 1) fs.inodesPerGroup
  rw [hgroup, hmod] at h₂
  have := hino.1
  have := hino'.1
  omega

theorem exists_place_eq (h : fs.InodeTables) (hgroups : fs.groupCount ≠ 0)
    (hwrap : 2 ^ 32 < fs.inodesPerGroup * fs.inodeSize) :
    fs.HasIno 1 ∧ ∃ ino', fs.HasIno ino' ∧ ino' ≠ 1 ∧ fs.inodeBlock ino' = fs.inodeBlock 1 ∧
      fs.inodeOffset ino' = fs.inodeOffset 1 := by
  obtain ⟨m, hm⟩ := h.inodeSize_dvd.trans h.blockSize_dvd.2
  have hlt : m < fs.inodesPerGroup := by
    rw [hm, Nat.mul_comm] at hwrap
    exact Nat.lt_of_mul_lt_mul_right hwrap
  have hmpos : m ≠ 0 := by
    rintro rfl
    simp at hm
  have hipg := h.inodesPerGroup_lt
  have hall : fs.inodesPerGroup ≤ fs.groupCount * fs.inodesPerGroup :=
    Nat.le_mul_of_pos_left _ (Nat.pos_of_ne_zero hgroups)
  have hgroup : (m + 1 - 1) / fs.inodesPerGroup = (1 - 1) / fs.inodesPerGroup := by
    rw [Nat.add_sub_cancel, Nat.div_eq_of_lt hlt, Nat.zero_div]
  have hstart : (m + 1 - 1) % fs.inodesPerGroup * fs.inodeSize % 2 ^ 32 =
      (1 - 1) % fs.inodesPerGroup * fs.inodeSize % 2 ^ 32 := by
    rw [Nat.add_sub_cancel, Nat.mod_eq_of_lt hlt, Nat.mul_comm, ← hm, Nat.mod_self, Nat.zero_mod,
      Nat.zero_mul, Nat.zero_mod]
  refine ⟨⟨Nat.one_pos, by omega, by decide⟩, m + 1, ⟨Nat.succ_pos m, by omega, by omega⟩, by omega,
    ?_, ?_⟩
  · rw [inodeBlock, inodeBlock, hgroup, hstart]
  · rw [inodeOffset, inodeOffset, hstart]

end InodeTables

end Ext4Fs

variable {fs : Ext4Fs}

theorem inodeLens_of_place_ne (h : fs.InodeTables) {ino : ℕ} (hino : fs.HasIno ino) (v : Bytes)
    (hne : ∀ ino', fs.HasIno ino' → ino' ≠ ino → fs.inodeBlock ino' = fs.inodeBlock ino →
      fs.inodeOffset ino' ≠ fs.inodeOffset ino) : InodeLens fs ino v := by
  have hhas : ∀ {ino'}, fs.HasIno ino' → (fs.putInode ino v).HasIno ino' := id
  constructor
  · rw [fs.withInode_eq hino]
  · rw [fs.withInode_eq hino]
    refine ⟨_, Ext4Fs.inodeAt_eq (hhas hino), fun k hk => ?_⟩
    exact h.read_of_eq hk rfl rfl
  · intro ino' hino' hother
    rw [fs.withInode_eq hino]
    refine ⟨_, Ext4Fs.inodeAt_eq hino', _, Ext4Fs.inodeAt_eq (hhas hino'), fun k hk => ?_⟩
    exact h.read_of_ne hk (hne ino' hino' hother)
  · intro b hb
    rw [fs.withInode_eq hino]
    refine Ext4Fs.device_putBlock_of_ne fun heq => hb ?_
    rw [heq]
    exact h.inTable hino

theorem not_inodeLens_of_place_eq (h : fs.InodeTables) {ino ino' : ℕ} {v : Bytes}
    (hino : fs.HasIno ino) (hino' : fs.HasIno ino') (hne : ino' ≠ ino)
    (hblock : fs.inodeBlock ino' = fs.inodeBlock ino) (hoff : fs.inodeOffset ino' = fs.inodeOffset ino)
    (hv : v 0 ≠ fs.device (fs.inodeBlock ino) (fs.inodeOffset ino)) : ¬InodeLens fs ino v := by
  intro hlens
  obtain ⟨w, hw, w', hw', hsame⟩ := hlens.read_other ino' hino' hne
  have hhas : (fs.putInode ino v).HasIno ino' := hino'
  obtain rfl := Option.some.inj ((Ext4Fs.inodeAt_eq hino').symm.trans hw)
  rw [fs.withInode_eq hino] at hw'
  obtain rfl := Option.some.inj ((Ext4Fs.inodeAt_eq hhas).symm.trans hw')
  have hread := h.read_of_eq (v := v) (k := 0) (by decide) hblock hoff
  have heq := hread.symm.trans (hsame 0 (by decide))
  rw [hblock, hoff] at heq
  exact hv heq

/-- Inodes are read as they were written, and only they change, if and only if the inode tables have at
most `2 ^ 32` bytes. -/
theorem inode_lens_iff (h : fs.InodeTables) :
    (∀ ino, fs.HasIno ino → ∀ v, InodeLens fs ino v) ↔
      fs.groupCount = 0 ∨ fs.inodesPerGroup * fs.inodeSize ≤ 2 ^ 32 := by
  constructor
  · intro hlens
    by_contra hcond
    rw [not_or, not_le] at hcond
    obtain ⟨hino, ino', hino', hne, hblock, hoff⟩ := h.exists_place_eq hcond.1 hcond.2
    refine not_inodeLens_of_place_eq h hino hino' hne hblock hoff ?_ (hlens 1 hino fun _ =>
      fs.device (fs.inodeBlock 1) (fs.inodeOffset 1) + 1)
    simp
  · rintro (hgroups | hfit) ino hino v
    · have hlt := hino.group_lt
      rw [hgroups] at hlt
      exact absurd hlt (Nat.not_lt_zero _)
    · exact inodeLens_of_place_ne h hino v fun ino' hino' hne => h.place_ne hfit hino hino' hne

theorem Ext4Fs.InodeTables.of_single (hparams : fs.parameters = fs) (hmount : Mountable fs)
    (hdvd : fs.inodeSize ∣ fs.blockSize) (hsize : ext4Inode.size ≤ fs.inodeSize)
    (hsingle : fs.groupCount = 1) : fs.InodeTables where
  parameters := hparams
  mountable := hmount
  inodeSize_dvd := hdvd
  inodeSize_le := hsize
  apart group hgroup group' hgroup' _ _ _ := by omega

theorem inode_lens_sample : mountedSample.fs.HasIno 2 ∧ InodeLens mountedSample.fs 2 fun _ => 1 := by
  obtain ⟨h, -⟩ := mount_mountedOn mount_sample
  have hino : mountedSample.fs.HasIno 2 := ⟨by decide +kernel, by decide +kernel, by decide +kernel⟩
  refine ⟨hino, (inode_lens_iff (.of_single h.parameters h.mountable ?_ ?_ ?_)).mpr (.inr ?_) 2 hino _⟩
  all_goals decide +kernel

def crowdedSuper : Bytes :=
  [(SuperField.blocksCountLo, 2 ^ 23), (.firstDataBlock, 1), (.blocksPerGroup, 2 ^ 23),
    (.inodesPerGroup, 2 ^ 25 + 8), (.magic, 0xEF53)].foldl
    (fun sb x => ext4Superblock.set sb 0 x.1 x.2) fun _ => 0

/-- One group of 8 GiB with a table of `2 ^ 25 + 8` inodes, from block 5 on. -/
def crowdedDevice : ℕ → Bytes
  | 1, i => crowdedSuper i
  | 2, i => if i < 32 then sampleDesc i else 0
  | _, _ => 0

def crowdedFs : Ext4Fs :=
  (freshFs crowdedDevice fun _ => sampleDesc).parameters.copyDescs (crowdedDevice 2) 0 1

theorem mount_crowded : mount crowdedDevice (fun _ => sampleDesc) [] [] = some ⟨crowdedFs, [], []⟩ := by
  have hblock : (freshFs crowdedDevice fun _ => sampleDesc).parameters.gdBlock = 2 := by
    decide +kernel
  rw [crowdedFs, ← hblock]
  refine mount_single ⟨?_, ?_, ?_⟩ ?_ ?_
  all_goals decide +kernel

/-- The inode `2 ^ 25 + 1` has the place of inode 1. -/
theorem inode_lens_wraps :
    mount crowdedDevice (fun _ => sampleDesc) [] [] = some ⟨crowdedFs, [], []⟩ ∧
      crowdedFs.InodeTables ∧ crowdedFs.HasIno 1 ∧ crowdedFs.HasIno (2 ^ 25 + 1) ∧
      ¬InodeLens crowdedFs 1 fun _ => 1 := by
  obtain ⟨h, -⟩ := mount_mountedOn mount_crowded
  have htables : crowdedFs.InodeTables := by
    refine .of_single h.parameters h.mountable ?_ ?_ ?_
    all_goals decide +kernel
  have hone : crowdedFs.HasIno 1 := ⟨by decide +kernel, by decide +kernel, by decide +kernel⟩
  have hother : crowdedFs.HasIno (2 ^ 25 + 1) :=
    ⟨by decide +kernel, by decide +kernel, by decide +kernel⟩
  refine ⟨mount_crowded, htables, hone, hother,
    not_inodeLens_of_place_eq htables hone hother ?_ ?_ ?_ ?_⟩
  all_goals decide +kernel

end GcAos.Fs
