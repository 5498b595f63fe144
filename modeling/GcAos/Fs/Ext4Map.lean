import GcAos.Fs.Ext4
import GcAos.Lib.Forest

/-! Where a mounted ext4 file system keeps its bitmaps and inodes, and the block map of its inodes
as trees of pointer blocks. -/

namespace GcAos.Fs
open Lib

/-- What no operation changes. -/
@[ext]
structure Geometry where
  blockSize : ℕ
  blocksPerGroup : ℕ
  inodesPerGroup : ℕ
  inodeSize : ℕ
  groupCount : ℕ
  descSize : ℕ
  firstDataBlock : ℕ
  blockBitmap : ℕ → ℕ
  inodeBitmap : ℕ → ℕ
  inodeTable : ℕ → ℕ

def Ext4Fs.geometry (fs : Ext4Fs) : Geometry where
  blockSize := fs.blockSize
  blocksPerGroup := fs.blocksPerGroup
  inodesPerGroup := fs.inodesPerGroup
  inodeSize := fs.inodeSize
  groupCount := fs.groupCount
  descSize := fs.descSize
  firstDataBlock := fs.super .firstDataBlock
  blockBitmap := fs.getBlockBitmap
  inodeBitmap := fs.getInodeBitmap
  inodeTable := fs.inodeTable

/-- The blocks that hold metadata of a group. -/
inductive Area
  | blockBitmap (group : ℕ)
  | inodeBitmap (group : ℕ)
  | inodeTable (group j : ℕ)

namespace Geometry

variable (g : Geometry)

def Has : Area → Prop
  | .blockBitmap group | .inodeBitmap group => group < g.groupCount
  | .inodeTable group j => group < g.groupCount ∧ j * g.blockSize < g.inodesPerGroup * g.inodeSize

def place : Area → ℕ
  | .blockBitmap group => g.blockBitmap group
  | .inodeBitmap group => g.inodeBitmap group
  | .inodeTable group j => g.inodeTable group + j

/-- Block 0 is never handed out: as a pointer it means that there is no block. -/
def Reserved (b : ℕ) : Prop := b = 0 ∨ ∃ a, g.Has a ∧ g.place a = b

def InRange (b : ℕ) : Prop :=
  g.firstDataBlock ≤ b ∧ b < g.firstDataBlock + g.groupCount * g.blocksPerGroup

def blockAt (group index : ℕ) : ℕ := g.firstDataBlock + group * g.blocksPerGroup + index

def groupOf (b : ℕ) : ℕ := (b - g.firstDataBlock) / g.blocksPerGroup

def indexOf (b : ℕ) : ℕ := (b - g.firstDataBlock) % g.blocksPerGroup

def used (device : ℕ → Bytes) (b : ℕ) : Bool :=
  (device (g.blockBitmap (g.groupOf b))).bit (g.indexOf b)

def ValidIno (ino : ℕ) : Prop := ino ≠ 0 ∧ (ino - 1) / g.inodesPerGroup < g.groupCount

instance (ino : ℕ) : Decidable (g.ValidIno ino) := inferInstanceAs (Decidable (_ ∧ _))

def inodeArea (ino : ℕ) : Area :=
  .inodeTable ((ino - 1) / g.inodesPerGroup)
    ((ino - 1) % g.inodesPerGroup * g.inodeSize / g.blockSize)

def inodeOffset (ino : ℕ) : ℕ := (ino - 1) % g.inodesPerGroup * g.inodeSize % g.blockSize

def inode (device : ℕ → Bytes) (ino : ℕ) : Bytes :=
  fun i => device (g.place (g.inodeArea ino)) (g.inodeOffset ino + i)

def shape : Shape (ℕ × Fin 15) where
  depth k := k.2 - 11
  arity := g.blockSize / 4

structure Sane : Prop where
  blockSize_pos : 0 < g.blockSize
  four_dvd : 4 ∣ g.blockSize
  perGroup_pos : 0 < g.blocksPerGroup
  perGroup_le : g.blocksPerGroup ≤ 8 * g.blockSize
  inodes_pos : 0 < g.inodesPerGroup
  inodes_le : g.inodesPerGroup ≤ 8 * g.blockSize
  inodeSize_le : ext4Inode.size ≤ g.inodeSize
  inodeSize_dvd : g.inodeSize ∣ g.blockSize
  blocks_le : g.firstDataBlock + g.groupCount * g.blocksPerGroup ≤ 2 ^ 32
  inodes_lt : g.groupCount * g.inodesPerGroup < 2 ^ 32
  table_le : g.inodesPerGroup * g.inodeSize ≤ 2 ^ 32
  apart : ∀ a a', g.Has a → g.Has a' → g.place a = g.place a' → a = a'

end Geometry

namespace Ext4Fs

variable {fs : Ext4Fs} {k : BitmapKind} {group group' : ℕ}

theorem desc_setDesc_of_ne {f f' : DescField} {v : ℕ} (h : f ≠ f') :
    (fs.setDesc group f v).desc group' f' = fs.desc group' f' := by
  by_cases hg : group' = group
  · subst hg
    simp only [desc, setDesc, Function.update_self]
    exact Layout.get_set_of_field_ne h
  · simp only [desc, setDesc, Function.update_of_ne hg]

theorem desc_setDesc_of_group_ne {f f' : DescField} {v : ℕ} (h : group' ≠ group) :
    (fs.setDesc group f v).desc group' f' = fs.desc group' f' := by
  simp only [desc, setDesc, Function.update_of_ne h]

theorem desc_setDesc_self {f : DescField} {v : ℕ} :
    (fs.setDesc group f v).desc group f = v % 256 ^ ext4GroupDesc.len f := by
  simp only [desc, setDesc, Function.update_self]
  exact Layout.get_set_self

theorem super_setSuper_of_ne {f f' : SuperField} {v : ℕ} (h : f ≠ f') :
    (fs.setSuper f v).super f' = fs.super f' := Layout.get_set_of_field_ne h

theorem super_setSuper_self {f : SuperField} {v : ℕ} :
    (fs.setSuper f v).super f = v % 256 ^ ext4Superblock.len f := Layout.get_set_self

theorem desc64_setDesc_of_ne {f lo hi : DescField} {v shift : ℕ} (hlo : f ≠ lo) (hhi : f ≠ hi) :
    (fs.setDesc group f v).desc64 group' lo hi shift = fs.desc64 group' lo hi shift := by
  rw [desc64, desc64, desc_setDesc_of_ne hlo, desc_setDesc_of_ne hhi]
  rfl

theorem geometry_setDesc_count (v : ℕ) :
    (fs.setDesc group k.freeCountLo v).geometry = fs.geometry := by
  ext group'
  iterate 7 rfl
  all_goals
    simp only [geometry, getBlockBitmap, getInodeBitmap, inodeTable]
    rw [desc64_setDesc_of_ne (by cases k <;> decide) (by cases k <;> decide)]
    try rfl

theorem geometry_setSuper_free (v : ℕ) : (fs.setSuper k.superFree v).geometry = fs.geometry := by
  have hfirst : (fs.setSuper k.superFree v).super .firstDataBlock = fs.super .firstDataBlock :=
    super_setSuper_of_ne (by cases k <;> decide)
  rw [geometry, hfirst]
  rfl

@[simp] theorem geometry_countDown : (fs.countDown k group).geometry = fs.geometry := by
  rw [countDown, geometry_setSuper_free, geometry_setDesc_count]

@[simp] theorem geometry_countUp : (fs.countUp k group).geometry = fs.geometry := by
  rw [countUp, geometry_setSuper_free, geometry_setDesc_count]

@[simp] theorem geometry_putBlock {block : ℕ} {buf : Bytes} :
    (fs.putBlock block buf).geometry = fs.geometry := rfl

/-- What allocating bit `index` of a group leaves. -/
def takeBit (fs : Ext4Fs) (k : BitmapKind) (group index : ℕ) : Ext4Fs :=
  (fs.putBlock (k.bitmap fs group) ((fs.device (k.bitmap fs group)).setBit index)).countDown k group

def dropBit (fs : Ext4Fs) (k : BitmapKind) (group index : ℕ) : Ext4Fs :=
  (fs.putBlock (k.bitmap fs group) ((fs.device (k.bitmap fs group)).clearBit index)).countUp k group

def putInode (fs : Ext4Fs) (ino : ℕ) (inode : Bytes) : Ext4Fs :=
  fs.putBlock (fs.inodeBlock ino)
    ((fs.device (fs.inodeBlock ino)).blit (fs.inodeOffset ino) ext4Inode.size inode)

@[simp] theorem geometry_takeBit {index : ℕ} : (fs.takeBit k group index).geometry = fs.geometry :=
  geometry_countDown

@[simp] theorem geometry_dropBit {index : ℕ} : (fs.dropBit k group index).geometry = fs.geometry :=
  geometry_countUp

@[simp] theorem geometry_putInode {ino : ℕ} {v : Bytes} :
    (fs.putInode ino v).geometry = fs.geometry := rfl

theorem device_putBlock_of_ne {b c : ℕ} {buf : Bytes} (h : c ≠ b) :
    (fs.putBlock b buf).device c = fs.device c := Function.update_of_ne h _ _

theorem device_putBlock_self {b i : ℕ} {buf : Bytes} (h : i < fs.blockSize) :
    (fs.putBlock b buf).device b i = buf i := by
  have hself : (fs.putBlock b buf).device b = (fs.device b).blit 0 fs.blockSize buf :=
    Function.update_self _ _ _
  rw [hself]
  exact Bytes.blit_zero h

theorem device_putBlock {b : ℕ} {buf : Bytes} (h : ∀ i, fs.blockSize ≤ i → buf i = fs.device b i) :
    (fs.putBlock b buf).device = Function.update fs.device b buf := by
  have hblit : (fs.device b).blit 0 fs.blockSize buf = buf := by
    funext i
    by_cases hi : i < fs.blockSize
    · exact Bytes.blit_zero hi
    · rw [Bytes.blit_of_le (by omega), h i (by omega)]
  exact congrArg (Function.update fs.device b) hblit

end Ext4Fs

namespace Geometry

variable {g : Geometry} {b i group : ℕ}

theorem blockAt_groupOf (hb : g.InRange b) : g.blockAt (g.groupOf b) (g.indexOf b) = b := by
  have hdiv := Nat.div_add_mod' (b - g.firstDataBlock) g.blocksPerGroup
  have hlo := hb.1
  rw [blockAt, groupOf, indexOf]
  omega

theorem indexOf_blockAt (hi : i < g.blocksPerGroup) : g.indexOf (g.blockAt group i) = i := by
  have hsub : g.blockAt group i - g.firstDataBlock = g.blocksPerGroup * group + i := by
    rw [blockAt, Nat.mul_comm]
    omega
  rw [indexOf, hsub, Nat.mul_add_mod, Nat.mod_eq_of_lt hi]

theorem groupOf_blockAt (hi : i < g.blocksPerGroup) : g.groupOf (g.blockAt group i) = group := by
  have hsub : g.blockAt group i - g.firstDataBlock = g.blocksPerGroup * group + i := by
    rw [blockAt, Nat.mul_comm]
    omega
  rw [groupOf, hsub, Nat.mul_add_div (Nat.zero_lt_of_lt hi), Nat.div_eq_of_lt hi, Nat.add_zero]

theorem inRange_blockAt (hgroup : group < g.groupCount) (hi : i < g.blocksPerGroup) :
    g.InRange (g.blockAt group i) := by
  have hmul : (group + 1) * g.blocksPerGroup ≤ g.groupCount * g.blocksPerGroup :=
    Nat.mul_le_mul_right _ hgroup
  rw [Nat.succ_mul] at hmul
  constructor <;> rw [blockAt] <;> omega

theorem reserved_place {a : Area} (ha : g.Has a) : g.Reserved (g.place a) := .inr ⟨a, ha, rfl⟩

end Geometry

namespace Geometry.Sane

variable {g : Geometry} (hg : g.Sane) {ino ino' b i group : ℕ}
include hg

theorem arity_mul : 4 * g.shape.arity = g.blockSize := Nat.mul_div_cancel' hg.four_dvd

theorem groupOf_lt (hb : g.InRange b) : g.groupOf b < g.groupCount := by
  obtain ⟨hlo, hhi⟩ := hb
  rw [groupOf, Nat.div_lt_iff_lt_mul hg.perGroup_pos]
  omega

theorem indexOf_lt : g.indexOf b < g.blocksPerGroup := Nat.mod_lt _ hg.perGroup_pos

theorem index_lt : (ino - 1) % g.inodesPerGroup < g.inodesPerGroup := Nat.mod_lt _ hg.inodes_pos

theorem index_mul_lt : (ino - 1) % g.inodesPerGroup * g.inodeSize < 2 ^ 32 := by
  have hsize : 0 < g.inodeSize := lt_of_lt_of_le (by decide) hg.inodeSize_le
  exact ((Nat.mul_lt_mul_right hsize).mpr hg.index_lt).trans_le hg.table_le

theorem has_inodeArea (hino : g.ValidIno ino) : g.Has (g.inodeArea ino) := by
  refine ⟨hino.2, lt_of_le_of_lt (Nat.div_mul_le_self _ _) ?_⟩
  exact (Nat.mul_lt_mul_right (lt_of_lt_of_le (by decide) hg.inodeSize_le)).mpr hg.index_lt

theorem inodeOffset_add_le : g.inodeOffset ino + ext4Inode.size ≤ g.blockSize := by
  obtain ⟨q, hq⟩ := hg.inodeSize_dvd
  have hoff : g.inodeOffset ino = g.inodeSize * ((ino - 1) % g.inodesPerGroup % q) := by
    rw [inodeOffset, hq, Nat.mul_comm, Nat.mul_mod_mul_left]
  have hqpos : 0 < q := by
    rcases Nat.eq_zero_or_pos q with rfl | h
    · have := hg.blockSize_pos
      omega
    · exact h
  have hslot : (ino - 1) % g.inodesPerGroup % q + 1 ≤ q := Nat.mod_lt _ hqpos
  have hmul := Nat.mul_le_mul_left g.inodeSize hslot
  rw [Nat.mul_succ] at hmul
  have := hg.inodeSize_le
  omega

theorem inode_apart (hne : ino ≠ ino') (hino : g.ValidIno ino) (hino' : g.ValidIno ino') :
    g.place (g.inodeArea ino) ≠ g.place (g.inodeArea ino') ∨
      g.inodeOffset ino + ext4Inode.size ≤ g.inodeOffset ino' ∨
      g.inodeOffset ino' + ext4Inode.size ≤ g.inodeOffset ino := by
  by_cases hplace : g.place (g.inodeArea ino) = g.place (g.inodeArea ino')
  · right
    have harea := hg.apart _ _ (hg.has_inodeArea hino) (hg.has_inodeArea hino') hplace
    obtain ⟨hgroup, hblock⟩ := Area.inodeTable.inj harea
    have hidx : (ino - 1) % g.inodesPerGroup ≠ (ino' - 1) % g.inodesPerGroup := by
      intro hmod
      have h₁ := Nat.div_add_mod (ino - 1) g.inodesPerGroup
      have h₂ := Nat.div_add_mod (ino' - 1) g.inodesPerGroup
      rw [hgroup, hmod] at h₁
      have := hino.1
      have := hino'.1
      omega
    have h₁ := Nat.div_add_mod ((ino - 1) % g.inodesPerGroup * g.inodeSize) g.blockSize
    have h₂ := Nat.div_add_mod ((ino' - 1) % g.inodesPerGroup * g.inodeSize) g.blockSize
    rw [hblock] at h₁
    have hsize := hg.inodeSize_le
    rw [inodeOffset, inodeOffset]
    rcases Nat.lt_or_gt_of_ne hidx with hlt | hlt
    · have hmul := Nat.mul_le_mul_right g.inodeSize (Nat.succ_le_of_lt hlt)
      rw [Nat.succ_mul] at hmul
      omega
    · have hmul := Nat.mul_le_mul_right g.inodeSize (Nat.succ_le_of_lt hlt)
      rw [Nat.succ_mul] at hmul
      omega
  · exact .inl hplace

end Geometry.Sane

def BitmapKind.area : BitmapKind → ℕ → Area
  | block => .blockBitmap
  | inode => .inodeBitmap

namespace Ext4Fs

variable {fs : Ext4Fs} {g : Geometry} {k : BitmapKind} {b c group i ino ino' : ℕ} {v : Bytes}

theorem bitmap_eq_place (hfs : fs.geometry = g) : k.bitmap fs group = g.place (k.area group) := by
  subst hfs
  cases k <;> rfl

theorem has_bitmap (hgroup : group < g.groupCount) : g.Has (k.area group) := by
  cases k <;> exact hgroup

section
variable (hfs : fs.geometry = g) (hg : g.Sane)
include hfs hg

theorem perGroup_le : k.perGroup fs ≤ 8 * fs.blockSize := by
  subst hfs
  cases k
  · exact hg.perGroup_le
  · exact hg.inodes_le

theorem device_takeBit (hi : i < k.perGroup fs) :
    (fs.takeBit k group i).device =
      Function.update fs.device (g.place (k.area group))
        ((fs.device (g.place (k.area group))).setBit i) := by
  rw [← bitmap_eq_place hfs]
  apply device_putBlock
  intro j hj
  have := perGroup_le (k := k) hfs hg
  exact Bytes.setBit_apply_of_ne (by omega)

theorem device_dropBit (hi : i < k.perGroup fs) :
    (fs.dropBit k group i).device =
      Function.update fs.device (g.place (k.area group))
        ((fs.device (g.place (k.area group))).clearBit i) := by
  rw [← bitmap_eq_place hfs]
  apply device_putBlock
  intro j hj
  have := perGroup_le (k := k) hfs hg
  exact Bytes.clearBit_apply_of_ne (by omega)

theorem inodeBlock_eq : fs.inodeBlock ino = g.place (g.inodeArea ino) := by
  subst hfs
  have hlt : (ino - 1) % fs.inodesPerGroup * fs.inodeSize < 2 ^ 32 := hg.index_mul_lt
  rw [inodeBlock, Nat.mod_eq_of_lt hlt]
  rfl

theorem inodeOffset_eq : fs.inodeOffset ino = g.inodeOffset ino := by
  subst hfs
  have hlt : (ino - 1) % fs.inodesPerGroup * fs.inodeSize < 2 ^ 32 := hg.index_mul_lt
  rw [inodeOffset, Nat.mod_eq_of_lt hlt]
  rfl

theorem device_putInode :
    (fs.putInode ino v).device =
      Function.update fs.device (g.place (g.inodeArea ino))
        ((fs.device (g.place (g.inodeArea ino))).blit (g.inodeOffset ino) ext4Inode.size v) := by
  rw [putInode, inodeBlock_eq hfs hg, inodeOffset_eq hfs hg]
  apply device_putBlock
  intro j hj
  subst hfs
  have hfit : fs.geometry.inodeOffset ino + ext4Inode.size ≤ fs.blockSize := hg.inodeOffset_add_le
  exact Bytes.blit_of_le (by omega)

theorem inode_putInode_self (hi : i < ext4Inode.size) :
    g.inode (fs.putInode ino v).device ino i = v i := by
  rw [Geometry.inode, device_putInode hfs hg, Function.update_self]
  exact Bytes.blit_of_mem hi

theorem inode_putInode_of_ne (hino : g.ValidIno ino) (hino' : g.ValidIno ino') (hne : ino' ≠ ino)
    (hi : i < ext4Inode.size) :
    g.inode (fs.putInode ino v).device ino' i = g.inode fs.device ino' i := by
  rw [Geometry.inode, Geometry.inode, device_putInode hfs hg]
  by_cases hplace : g.place (g.inodeArea ino') = g.place (g.inodeArea ino)
  · rw [hplace, Function.update_self]
    rcases hg.inode_apart hne hino' hino with h | h | h
    · exact absurd hplace h
    · exact Bytes.blit_of_lt (by omega)
    · exact Bytes.blit_of_le (by omega)
  · rw [Function.update_of_ne hplace]

end

end Ext4Fs

namespace Geometry

variable {g : Geometry} {device device' : ℕ → Bytes} {b group i ino : ℕ} {a : Area} {blk : Bytes}

theorem used_congr (h : device' (g.blockBitmap (g.groupOf b)) = device (g.blockBitmap (g.groupOf b))) :
    g.used device' b = g.used device b := by
  rw [used, used, h]

theorem inode_congr (h : device' (g.place (g.inodeArea ino)) = device (g.place (g.inodeArea ino))) :
    g.inode device' ino = g.inode device ino := by
  funext i
  rw [inode, inode, h]

namespace Sane

variable (hg : g.Sane)
include hg

theorem used_update (ha : g.Has a) (hne : ∀ group, a ≠ .blockBitmap group) (hb : g.InRange b) :
    g.used (Function.update device (g.place a) blk) b = g.used device b := by
  apply used_congr
  apply Function.update_of_ne
  intro hplace
  exact hne _ (hg.apart _ (.blockBitmap _) ha (hg.groupOf_lt hb) hplace.symm)

theorem inode_update (ha : g.Has a) (hne : ∀ group j, a ≠ .inodeTable group j)
    (hino : g.ValidIno ino) :
    g.inode (Function.update device (g.place a) blk) ino = g.inode device ino := by
  apply inode_congr
  apply Function.update_of_ne
  intro hplace
  exact hne _ _ (hg.apart _ _ ha (hg.has_inodeArea hino) hplace.symm)

theorem used_update_bitmap (hgroup : group < g.groupCount) (hi : i < g.blocksPerGroup)
    (hb : g.InRange b) (hbit : ∀ j, j ≠ i → blk.bit j = (device (g.blockBitmap group)).bit j) :
    g.used (Function.update device (g.blockBitmap group) blk) b =
      if b = g.blockAt group i then blk.bit i else g.used device b := by
  by_cases hsame : g.groupOf b = group
  · by_cases hidx : g.indexOf b = i
    · have heq : b = g.blockAt group i := by rw [← blockAt_groupOf hb, hsame, hidx]
      rw [if_pos heq, used, hsame, hidx, Function.update_self]
    · have hne : b ≠ g.blockAt group i := fun h => hidx (by rw [h, indexOf_blockAt hi])
      rw [if_neg hne, used, hsame, Function.update_self, hbit _ hidx, used, hsame]
  · have hne : b ≠ g.blockAt group i := fun h => hsame (by rw [h, groupOf_blockAt hi])
    rw [if_neg hne]
    apply used_congr
    apply Function.update_of_ne
    intro hplace
    have harea := hg.apart (.blockBitmap _) (.blockBitmap _) (hg.groupOf_lt hb) hgroup hplace
    exact hsame (Area.blockBitmap.inj harea)

end Sane

/-- The disk block behind a file block, as `ext4_get_file_block` finds it when nothing fails. -/
def fileBlock (g : Geometry) (device : ℕ → Bytes) (inode : Bytes) (fileBlock : ℕ) : ℕ :=
  if h : fileBlock < ext4NdirBlocks then iBlock inode ⟨fileBlock, lt_iBlock h⟩
  else
    let fileBlock := fileBlock - ext4NdirBlocks
    let ptrs := g.shape.arity
    if fileBlock < ptrs then
      if iBlock inode ext4IndBlock = 0 then 0 else ptrAt (device (iBlock inode ext4IndBlock)) fileBlock
    else
      let fileBlock := fileBlock - ptrs
      if fileBlock < ptrs * ptrs % 2 ^ 32 then
        if iBlock inode ext4DindBlock = 0 then 0
        else
          let ind := ptrAt (device (iBlock inode ext4DindBlock)) (fileBlock / ptrs)
          if ind = 0 then 0 else ptrAt (device ind) (fileBlock % ptrs)
      else 0

def fileAddr (g : Geometry) (fileBlock : ℕ) : Fin 15 × List ℕ :=
  if h : fileBlock < ext4NdirBlocks then (⟨fileBlock, lt_iBlock h⟩, [])
  else
    let fileBlock := fileBlock - ext4NdirBlocks
    let ptrs := g.shape.arity
    if fileBlock < ptrs then (ext4IndBlock, [fileBlock])
    else (ext4DindBlock, [(fileBlock - ptrs) % ptrs, (fileBlock - ptrs) / ptrs])

theorem length_fileAddr (fb : ℕ) (n : ℕ) :
    (g.fileAddr fb).2.length = g.shape.depth (n, (g.fileAddr fb).1) := by
  unfold fileAddr shape
  split
  · next h =>
    have : fb < 12 := h
    simp only [List.length_nil]
    omega
  · dsimp only
    split <;> rfl

theorem fileAddr_injective : Function.Injective g.fileAddr := by
  intro fb fb' h
  have hdir : (ext4NdirBlocks : ℕ) = 12 := rfl
  have hd : ((ext4IndBlock : Fin 15) : ℕ) = 12 := rfl
  have hd' : ((ext4DindBlock : Fin 15) : ℕ) = 13 := rfl
  unfold fileAddr at h
  dsimp only at h
  have hdiv := Nat.div_add_mod (fb - 12 - g.shape.arity) g.shape.arity
  have hdiv' := Nat.div_add_mod (fb' - 12 - g.shape.arity) g.shape.arity
  split at h <;> split at h
  all_goals try split at h
  all_goals try split at h
  all_goals
    simp only [Prod.mk.injEq, Fin.ext_iff, List.cons.injEq, hd, hd', hdir, and_true, reduceCtorEq,
      and_false] at h
  all_goals try omega
  obtain ⟨-, hmod, hquot⟩ := h
  rw [hmod, hquot] at hdiv
  omega

section
variable {fs : Ext4Fs} {c j : ℕ} (hfs : fs.geometry = g) (hg : g.Sane)
include hfs hg

theorem device_setPtr (hi : i < g.shape.arity) :
    (fs.putBlock c ((fs.device c).store (4 * i) 4 b)).device =
      Function.update fs.device c ((fs.device c).store (4 * i) 4 b) := by
  have hsize : 4 * g.shape.arity = fs.blockSize := by
    rw [hg.arity_mul, ← hfs]
    rfl
  apply Ext4Fs.device_putBlock
  intro j hj
  exact Bytes.blit_of_le (by omega)

theorem ptrAt_setPtr (hi : i < g.shape.arity) (hb : b < 2 ^ 32) :
    ptrAt ((fs.putBlock c ((fs.device c).store (4 * i) 4 b)).device c) i = b := by
  rw [device_setPtr hfs hg hi, Function.update_self, ptrAt, Bytes.load_store]
  exact Nat.mod_eq_of_lt hb

theorem ptrAt_setPtr_of_ne (hi : i < g.shape.arity) (hne : j ≠ i) :
    ptrAt ((fs.putBlock c ((fs.device c).store (4 * i) 4 b)).device c) j =
      ptrAt (fs.device c) j := by
  rw [device_setPtr hfs hg hi, Function.update_self, ptrAt, ptrAt]
  exact Bytes.load_store_of_apart (by omega)

theorem ptrAt_zero (hi : i < g.shape.arity) :
    ptrAt ((fs.putBlock c fun _ => 0).device c) i = 0 := by
  have hsize : 4 * g.shape.arity = fs.blockSize := by
    rw [hg.arity_mul, ← hfs]
    rfl
  have hword : ptrAt ((fs.putBlock c fun _ => 0).device c) i = Bytes.load (fun _ => 0) (4 * i) 4 :=
    Bytes.load_congr fun j hj => Ext4Fs.device_putBlock_self (by omega)
  rw [hword]
  rfl

end

theorem field_congr {v v' : Bytes} {f : InodeField} (h : ∀ i < ext4Inode.size, v i = v' i) :
    ext4Inode.get v 0 f = ext4Inode.get v' 0 f := by
  apply Layout.get_congr
  intro i hi
  rw [Nat.zero_add]
  exact h i hi

theorem iBlock_congr {v v' : Bytes} {k : Fin 15} (h : ∀ i < ext4Inode.size, v i = v' i) :
    iBlock v k = iBlock v' k := field_congr h

theorem iBlock_set_self {v : Bytes} {k : Fin 15} {b : ℕ} (hb : b < 2 ^ 32) :
    iBlock (ext4Inode.set v 0 (.block k) b) k = b :=
  Layout.get_set_self.trans (Nat.mod_eq_of_lt hb)

theorem iBlock_set_of_ne {v : Bytes} {k : Fin 15} {f : InodeField} {b : ℕ} (h : f ≠ .block k) :
    iBlock (ext4Inode.set v 0 f b) k = iBlock v k := Layout.get_set_of_field_ne h

def word (device : ℕ → Bytes) (b i : ℕ) : ℕ := ptrAt (device b) i

/-- The pointers of the inode `v`, kept as inode `ino`, are among the roots. -/
def Rooted (root : ℕ × Fin 15 → ℕ → Prop) (ino : ℕ) (v : Bytes) : Prop :=
  ∀ k, iBlock v k ≠ 0 → root (ino, k) (iBlock v k)

section
variable {root : ℕ × Fin 15 → ℕ → Prop} {v v' : Bytes} {fb : ℕ} (hv : Rooted root ino v)
include hv

theorem Rooted.refs {k : Fin 15} (h : iBlock v k ≠ 0) :
    Refs g.shape root (word device) (ino, k) [] (iBlock v k) := .root (hv k h) h

omit hv in
theorem Rooted.mono {root' : ℕ × Fin 15 → ℕ → Prop} (hv : Rooted root ino v)
    (h : ∀ k b, root (ino, k) b → root' (ino, k) b) : Rooted root' ino v :=
  fun k hk => h k _ (hv k hk)

theorem Rooted.congr (h : ∀ k, iBlock v' k = iBlock v k) : Rooted root ino v' := by
  intro k hk
  rw [h k] at hk ⊢
  exact hv k hk

theorem Rooted.set {k : Fin 15} (hb : b < 2 ^ 32) (hroot : root (ino, k) b) :
    Rooted root ino (ext4Inode.set v 0 (.block k) b) := by
  intro k' hk'
  by_cases hsame : k' = k
  · subst hsame
    rw [iBlock_set_self hb]
    exact hroot
  · have hne : InodeField.block k ≠ .block k' := fun h => hsame (InodeField.block.inj h).symm
    rw [iBlock_set_of_ne hne] at hk' ⊢
    exact hv k' hk'

theorem Rooted.set_field {f : InodeField} {x : ℕ} (hf : ∀ k, f ≠ .block k) :
    Rooted root ino (ext4Inode.set v 0 f x) :=
  hv.congr fun k => iBlock_set_of_ne (hf k)

theorem refs_fileBlock (hg : g.Sane) (h : g.fileBlock device v fb ≠ 0) :
    Refs g.shape root (word device) (ino, (g.fileAddr fb).1) (g.fileAddr fb).2
      (g.fileBlock device v fb) := by
  have harity : 0 < g.shape.arity := by
    have := hg.arity_mul
    have := hg.blockSize_pos
    omega
  unfold fileBlock at h ⊢
  unfold fileAddr
  split at h
  · next hdir => simpa [hdir] using hv.refs h
  · next hdir =>
    simp only [hdir, ↓reduceDIte] at h ⊢
    split at h
    · next hind =>
      split at h
      · exact absurd rfl h
      · next hne =>
        simp only [hind, ↓reduceIte, hne]
        exact .child (hv.refs hne) Nat.zero_lt_one hind h
    · next hind =>
      split at h
      · next hdind =>
        split at h
        · exact absurd rfl h
        · next hne =>
          split at h
          · exact absurd rfl h
          · next hchild =>
            simp only [hind, ↓reduceIte, hdind, hne, hchild]
            have hsquare : fb - ext4NdirBlocks - g.shape.arity < g.shape.arity * g.shape.arity :=
              hdind.trans_le (Nat.mod_le _ _)
            have hquot := Nat.div_lt_of_lt_mul hsquare
            exact .child (.child (hv.refs hne) Nat.zero_lt_two hquot hchild) Nat.one_lt_two
              (Nat.mod_lt _ harity) h
      · exact absurd rfl h

theorem fileBlock_congr
    (hdev : ∀ k p b, Refs g.shape root (word device) (ino, k) p b → p.length < g.shape.depth (ino, k) →
      device' b = device b) : g.fileBlock device' v fb = g.fileBlock device v fb := by
  unfold fileBlock
  split
  · rfl
  · dsimp only
    split
    · split
      · rfl
      · next hne => rw [hdev _ _ _ (hv.refs hne) Nat.zero_lt_one]
    · split
      · next hdind =>
        split
        · rfl
        · next hne =>
          rw [hdev _ _ _ (hv.refs hne) Nat.zero_lt_two]
          split
          · rfl
          · next hchild =>
            have hsquare : fb - ext4NdirBlocks - g.shape.arity < g.shape.arity * g.shape.arity :=
              hdind.trans_le (Nat.mod_le _ _)
            have hquot := Nat.div_lt_of_lt_mul hsquare
            exact congrArg (ptrAt · _)
              (hdev _ _ _ (.child (hv.refs hne) Nat.zero_lt_two hquot hchild) Nat.one_lt_two)
      · rfl

end

theorem fileBlock_inode_congr {v v' : Bytes} {fb : ℕ} (h : ∀ k, iBlock v' k = iBlock v k) :
    g.fileBlock device v' fb = g.fileBlock device v fb := by
  simp only [fileBlock, h]

end Geometry

end GcAos.Fs
