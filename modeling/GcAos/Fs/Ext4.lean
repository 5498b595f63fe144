import GcAos.Lib.Bitmap
import GcAos.Lib.Exec

/-! The ext4 driver of `kernel/fs/ext4.c`: bitmaps, inode tables, block maps and directories on a
block device. Every call that can fail for want of memory or of the device takes its outcome from
the state. -/

namespace GcAos.Fs
open Lib

def ext4SuperMagic : ℕ := 0xEF53
def ext4DynamicRev : ℕ := 1
def ext4FeatureIncompat64bit : ℕ := 0x0080
def ext4SIfdir : ℕ := 0x4000
def ext4NdirBlocks : ℕ := 12
def ext4IndBlock : Fin 15 := 12
def ext4DindBlock : Fin 15 := 13

theorem lt_iBlock {fileBlock : ℕ} (h : fileBlock < ext4NdirBlocks) : fileBlock < 15 :=
  Nat.lt_trans h (by decide)

inductive SuperField
  | blocksCountLo | freeBlocksCountLo | freeInodesCount | firstDataBlock | logBlockSize
  | blocksPerGroup | inodesPerGroup | magic | revLevel | inodeSize | featureIncompat | descSize
  | blocksCountHi
  deriving DecidableEq

def ext4Superblock : Layout SuperField where
  off
    | .blocksCountLo => 4
    | .freeBlocksCountLo => 12
    | .freeInodesCount => 16
    | .firstDataBlock => 20
    | .logBlockSize => 24
    | .blocksPerGroup => 32
    | .inodesPerGroup => 40
    | .magic => 56
    | .revLevel => 76
    | .inodeSize => 88
    | .featureIncompat => 96
    | .descSize => 254
    | .blocksCountHi => 336
  len
    | .magic | .inodeSize | .descSize => 2
    | _ => 4
  size := 384

inductive DescField
  | blockBitmapLo | inodeBitmapLo | inodeTableLo | freeBlocksCountLo | freeInodesCountLo
  | blockBitmapHi | inodeBitmapHi | inodeTableHi | freeBlocksCountHi | freeInodesCountHi
  deriving DecidableEq

def ext4GroupDesc : Layout DescField where
  off
    | .blockBitmapLo => 0
    | .inodeBitmapLo => 4
    | .inodeTableLo => 8
    | .freeBlocksCountLo => 12
    | .freeInodesCountLo => 14
    | .blockBitmapHi => 32
    | .inodeBitmapHi => 36
    | .inodeTableHi => 40
    | .freeBlocksCountHi => 44
    | .freeInodesCountHi => 46
  len
    | .freeBlocksCountLo | .freeInodesCountLo | .freeBlocksCountHi | .freeInodesCountHi => 2
    | _ => 4
  size := 64

inductive InodeField
  | mode | uid | sizeLo | mtime | gid | linksCount | blocksLo | block (k : Fin 15) | sizeHi
  deriving DecidableEq

def ext4Inode : Layout InodeField where
  off
    | .mode => 0
    | .uid => 2
    | .sizeLo => 4
    | .mtime => 16
    | .gid => 24
    | .linksCount => 26
    | .blocksLo => 28
    | .block k => 40 + 4 * k
    | .sizeHi => 108
  len
    | .mode | .uid | .gid | .linksCount => 2
    | _ => 4
  size := 116
  fits f := by cases f <;> dsimp only <;> omega
  apart f g h := by
    cases f <;> cases g <;> first | exact absurd rfl h | (dsimp only; omega) | skip
    next k l =>
      have hkl : (k : ℕ) ≠ l := fun hkl => h (congrArg InodeField.block (Fin.ext hkl))
      dsimp only
      omega

inductive DirField
  | inode | recLen | nameLen | fileType
  deriving DecidableEq

/-- The header of a `struct ext4_dir_entry`; the name follows it. -/
def ext4DirEntry : Layout DirField where
  off
    | .inode => 0
    | .recLen => 4
    | .nameLen => 6
    | .fileType => 7
  len
    | .inode => 4
    | .recLen => 2
    | .nameLen | .fileType => 1
  size := 8

/-- `struct ext4_fs`, with what is on its device. -/
structure Ext4Fs where
  sb : Bytes
  blockSize : ℕ
  blocksPerGroup : ℕ
  inodesPerGroup : ℕ
  inodeSize : ℕ
  groupCount : ℕ
  descSize : ℕ
  groupDescs : ℕ → Bytes
  device : ℕ → Bytes

/-- A mounted file system, and whether the next calls of `kmalloc` and of the block device will
succeed; the calls past the end of a list do. -/
structure Ext4 where
  fs : Ext4Fs
  kmallocs : List Bool
  ios : List Bool

namespace Ext4Fs

def super (fs : Ext4Fs) (f : SuperField) : ℕ := ext4Superblock.get fs.sb 0 f

def desc (fs : Ext4Fs) (group : ℕ) (f : DescField) : ℕ := ext4GroupDesc.get (fs.groupDescs group) 0 f

def setSuper (fs : Ext4Fs) (f : SuperField) (v : ℕ) : Ext4Fs :=
  { fs with sb := ext4Superblock.set fs.sb 0 f v }

def setDesc (fs : Ext4Fs) (group : ℕ) (f : DescField) (v : ℕ) : Ext4Fs :=
  { fs with
    groupDescs := Function.update fs.groupDescs group
      (ext4GroupDesc.set (fs.groupDescs group) 0 f v) }

def putBlock (fs : Ext4Fs) (block : ℕ) (buf : Bytes) : Ext4Fs :=
  { fs with
    device := Function.update fs.device block ((fs.device block).blit 0 fs.blockSize buf) }

/-- `lo`, with `hi` above it when descriptors have the 64-bit half. -/
def desc64 (fs : Ext4Fs) (group : ℕ) (lo hi : DescField) (shift : ℕ) : ℕ :=
  if 64 ≤ fs.descSize then fs.desc group lo ||| fs.desc group hi <<< shift else fs.desc group lo

def getBlockBitmap (fs : Ext4Fs) (group : ℕ) : ℕ :=
  if fs.groupCount ≤ group then 0 else fs.desc64 group .blockBitmapLo .blockBitmapHi 32

def getInodeBitmap (fs : Ext4Fs) (group : ℕ) : ℕ :=
  if fs.groupCount ≤ group then 0 else fs.desc64 group .inodeBitmapLo .inodeBitmapHi 32

def inodeTable (fs : Ext4Fs) (group : ℕ) : ℕ := fs.desc64 group .inodeTableLo .inodeTableHi 32

def ptrsPerBlock (fs : Ext4Fs) : ℕ := fs.blockSize / 4

end Ext4Fs

/-- The value of a 32-bit word as an `int`. -/
def toInt (v : ℕ) : ℤ := Int.bmod v (2 ^ 32)

theorem toInt_of_lt {v : ℕ} (h : v < 2 ^ 31) : toInt v = v := by
  apply Int.bmod_eq_of_le
  · norm_num
  · norm_num
    omega

theorem toInt_neg {v : ℕ} (h : 2 ^ 31 ≤ v) (h' : v < 2 ^ 32) : toInt v < 0 := by
  apply (Int.bmod_neg_iff (by norm_num) (by norm_num; omega)).mpr
  right
  norm_num
  omega

theorem toInt_cases {v : ℕ} (h : v < 2 ^ 32) :
    toInt v < 0 ∨ 0 ≤ toInt v ∧ (toInt v).toNat = v := by
  rcases Nat.lt_or_ge v (2 ^ 31) with hlt | hge
  · rw [toInt_of_lt hlt]
    exact .inr ⟨Int.natCast_nonneg v, Int.toNat_natCast v⟩
  · exact .inl (toInt_neg hge h)

namespace Ext4

def kmalloc (s : Ext4) : Bool × Ext4 :=
  (s.kmallocs.headD true, { s with kmallocs := s.kmallocs.tail })

def io (s : Ext4) : Bool × Ext4 := (s.ios.headD true, { s with ios := s.ios.tail })

def readBlock (s : Ext4) (block : ℕ) : Option Bytes × Ext4 :=
  let (ok, s) := s.io
  (if ok then some (s.fs.device block) else none, s)

def writeBlockRaw (s : Ext4) (block : ℕ) (buf : Bytes) : ℤ × Ext4 :=
  let (ok, s) := s.io
  if ok then (0, { s with fs := s.fs.putBlock block buf }) else (-1, s)

end Ext4

inductive BitmapKind
  | block | inode
  deriving DecidableEq

namespace BitmapKind

def bitmap : BitmapKind → Ext4Fs → ℕ → ℕ
  | block => Ext4Fs.getBlockBitmap
  | inode => Ext4Fs.getInodeBitmap

def freeCountLo : BitmapKind → DescField
  | block => .freeBlocksCountLo
  | inode => .freeInodesCountLo

def freeCountHi : BitmapKind → DescField
  | block => .freeBlocksCountHi
  | inode => .freeInodesCountHi

def superFree : BitmapKind → SuperField
  | block => .freeBlocksCountLo
  | inode => .freeInodesCount

/-- How many bytes of a bitmap the allocator looks at. -/
def scanBytes : BitmapKind → Ext4Fs → ℕ
  | block, fs => fs.blockSize
  | inode, fs => fs.inodesPerGroup / 8

def perGroup : BitmapKind → Ext4Fs → ℕ
  | block, fs => fs.blocksPerGroup
  | inode, fs => fs.inodesPerGroup

end BitmapKind

def Ext4Fs.freeCount (fs : Ext4Fs) (k : BitmapKind) (group : ℕ) : ℕ :=
  fs.desc64 group k.freeCountLo k.freeCountHi 16

/-- `count--` on the group's 16 bits and on the superblock's 32. -/
def Ext4Fs.countDown (fs : Ext4Fs) (k : BitmapKind) (group : ℕ) : Ext4Fs :=
  let fs := fs.setDesc group k.freeCountLo (fs.desc group k.freeCountLo + (2 ^ 16 - 1))
  fs.setSuper k.superFree (fs.super k.superFree + (2 ^ 32 - 1))

def Ext4Fs.countUp (fs : Ext4Fs) (k : BitmapKind) (group : ℕ) : Ext4Fs :=
  let fs := fs.setDesc group k.freeCountLo (fs.desc group k.freeCountLo + 1)
  fs.setSuper k.superFree (fs.super k.superFree + 1)

namespace Ext4

/-- The loop of `ext4_alloc_block` and `ext4_alloc_inode` over the groups still to be tried. -/
def allocScan (k : BitmapKind) (preferred : ℕ) : List ℕ → Ext4 → Option (ℕ × ℕ) × Ext4
  | [], s => (none, s)
  | g :: gs, s =>
    let group := (preferred + g) % 2 ^ 32 % s.fs.groupCount
    if s.fs.freeCount k group = 0 then allocScan k preferred gs s
    else
      let (bitmap?, s) := s.readBlock (k.bitmap s.fs group)
      match bitmap? with
      | none => allocScan k preferred gs s
      | some bitmap =>
        match bitmap.firstClear (k.scanBytes s.fs) (k.perGroup s.fs) with
        | none => allocScan k preferred gs s
        | some index =>
          let (ret, s) := s.writeBlockRaw (k.bitmap s.fs group) (bitmap.setBit index)
          if ret < 0 then (none, s)
          else (some (group, index), { s with fs := s.fs.countDown k group })

def allocBit (s : Ext4) (k : BitmapKind) (preferred : ℕ) : Option (ℕ × ℕ) × Ext4 :=
  let (ok, s) := s.kmalloc
  if ok then allocScan k preferred (List.range s.fs.groupCount) s else (none, s)

def freeBit (s : Ext4) (k : BitmapKind) (group index : ℕ) : ℤ × Ext4 :=
  if s.fs.groupCount ≤ group then (-1, s)
  else
    let (ok, s) := s.kmalloc
    if !ok then (-1, s)
    else
      let (bitmap?, s) := s.readBlock (k.bitmap s.fs group)
      match bitmap? with
      | none => (-1, s)
      | some bitmap =>
        let (ret, s) := s.writeBlockRaw (k.bitmap s.fs group) (bitmap.clearBit index)
        if ret < 0 then (-1, s) else (0, { s with fs := s.fs.countUp k group })

def allocBlock (s : Ext4) (preferredGroup : ℕ) : ℤ × Ext4 :=
  let (r, s) := s.allocBit .block preferredGroup
  match r with
  | none => (-1, s)
  | some (group, index) =>
    (toInt (s.fs.super .firstDataBlock + group * s.fs.blocksPerGroup + index), s)

def freeBlock (s : Ext4) (block : ℕ) : ℤ × Ext4 :=
  if block < s.fs.super .firstDataBlock then (-1, s)
  else
    let relBlock := block - s.fs.super .firstDataBlock
    s.freeBit .block (relBlock / s.fs.blocksPerGroup % 2 ^ 32) (relBlock % s.fs.blocksPerGroup)

def allocInode (s : Ext4) (preferredGroup : ℕ) : ℤ × Ext4 :=
  let (r, s) := s.allocBit .inode preferredGroup
  match r with
  | none => (-1, s)
  | some (group, index) => (toInt (group * s.fs.inodesPerGroup + index + 1), s)

/-- The group of an inode: `(ino - 1) / inodes_per_group` in 32 bits. -/
def inodeGroup (s : Ext4) (ino : ℕ) : ℕ := (ino + (2 ^ 32 - 1)) % 2 ^ 32 / s.fs.inodesPerGroup

def freeInode (s : Ext4) (ino : ℕ) : ℤ × Ext4 :=
  if ino = 0 then (-1, s)
  else
    s.freeBit .inode ((ino - 1) / s.fs.inodesPerGroup) ((ino - 1) % s.fs.inodesPerGroup)

end Ext4

/-- The block of the inode table that holds inode `ino`. -/
def Ext4Fs.inodeBlock (fs : Ext4Fs) (ino : ℕ) : ℕ :=
  let index := (ino - 1) % fs.inodesPerGroup
  fs.inodeTable ((ino - 1) / fs.inodesPerGroup) + index * fs.inodeSize % 2 ^ 32 / fs.blockSize

def Ext4Fs.inodeOffset (fs : Ext4Fs) (ino : ℕ) : ℕ :=
  (ino - 1) % fs.inodesPerGroup * fs.inodeSize % 2 ^ 32 % fs.blockSize

namespace Ext4

def readInode (s : Ext4) (ino : ℕ) : Option Bytes × Ext4 :=
  if ino = 0 then (none, s)
  else if s.fs.groupCount ≤ (ino - 1) / s.fs.inodesPerGroup then (none, s)
  else
    let (ok, s) := s.kmalloc
    if !ok then (none, s)
    else
      let (buf?, s) := s.readBlock (s.fs.inodeBlock ino)
      (buf?.map fun buf => (fun i => buf (s.fs.inodeOffset ino + i)), s)

def writeInode (s : Ext4) (ino : ℕ) (inode : Bytes) : ℤ × Ext4 :=
  if ino = 0 then (-1, s)
  else if s.fs.groupCount ≤ (ino - 1) / s.fs.inodesPerGroup then (-1, s)
  else
    let (ok, s) := s.kmalloc
    if !ok then (-1, s)
    else
      let (buf?, s) := s.readBlock (s.fs.inodeBlock ino)
      match buf? with
      | none => (-1, s)
      | some buf =>
        s.writeBlockRaw (s.fs.inodeBlock ino)
          (buf.blit (s.fs.inodeOffset ino) ext4Inode.size inode)

end Ext4

def iBlock (inode : Bytes) (k : Fin 15) : ℕ := ext4Inode.get inode 0 (.block k)

def ptrAt (block : Bytes) (i : ℕ) : ℕ := block.load (4 * i) 4

namespace Ext4

/-- The pointer `i` of the block `block`, 0 when it cannot be read. -/
def readPtr (s : Ext4) (block i : ℕ) : ℕ × Ext4 :=
  let (ok, s) := s.kmalloc
  if !ok then (0, s)
  else
    let (buf?, s) := s.readBlock block
    match buf? with
    | none => (0, s)
    | some buf => (ptrAt buf i, s)

def getFileBlock (s : Ext4) (inode : Bytes) (fileBlock : ℕ) : ℕ × Ext4 :=
  if h : fileBlock < ext4NdirBlocks then
    (iBlock inode ⟨fileBlock, lt_iBlock h⟩, s)
  else
    let fileBlock := fileBlock - ext4NdirBlocks
    let ptrs := s.fs.ptrsPerBlock
    if fileBlock < ptrs then
      if iBlock inode ext4IndBlock = 0 then (0, s)
      else s.readPtr (iBlock inode ext4IndBlock) fileBlock
    else
      let fileBlock := fileBlock - ptrs
      if fileBlock < ptrs * ptrs % 2 ^ 32 then
        if iBlock inode ext4DindBlock = 0 then (0, s)
        else
          let (ind, s) := s.readPtr (iBlock inode ext4DindBlock) (fileBlock / ptrs)
          if ind = 0 then (0, s) else s.readPtr ind (fileBlock % ptrs)
      -- triple indirect blocks are not implemented
      else (0, s)

/-- Allocating and zeroing the single indirect block of an inode that has none. The zeroing is
skipped when there is no memory for it. -/
def makeIndirect (s : Ext4) (inode : Bytes) (group : ℕ) : ℤ × Bytes × Ext4 :=
  if iBlock inode ext4IndBlock = 0 then
    let (newBlock, s) := s.allocBlock group
    if newBlock < 0 then (-1, inode, s)
    else
      let inode := ext4Inode.set inode 0 (.block ext4IndBlock) newBlock.toNat
      let (ok, s) := s.kmalloc
      if ok then (0, inode, (s.writeBlockRaw newBlock.toNat fun _ => 0).2) else (0, inode, s)
  else (0, inode, s)

/-- Returns the status with the inode as the call leaves it. -/
def setFileBlock (s : Ext4) (inode : Bytes) (fileBlock diskBlock ino : ℕ) : ℤ × Bytes × Ext4 :=
  if h : fileBlock < ext4NdirBlocks then
    (0, ext4Inode.set inode 0 (.block ⟨fileBlock, lt_iBlock h⟩) diskBlock, s)
  else
    let fileBlock := fileBlock - ext4NdirBlocks
    if fileBlock < s.fs.ptrsPerBlock then
      let (ret, inode, s) := s.makeIndirect inode (s.inodeGroup ino)
      if ret < 0 then (-1, inode, s)
      else
        let (ok, s) := s.kmalloc
        if !ok then (-1, inode, s)
        else
          let (buf?, s) := s.readBlock (iBlock inode ext4IndBlock)
          match buf? with
          | none => (-1, inode, s)
          | some buf =>
            let (ret, s) :=
              s.writeBlockRaw (iBlock inode ext4IndBlock) (buf.store (4 * fileBlock) 4 diskBlock)
            (ret, inode, s)
    -- double and triple indirect blocks are not implemented for writes
    else (-1, inode, s)

end Ext4

/-- `while (name[name_len] && name_len < 255) name_len++`. -/
def nameLength (name : Bytes) : ℕ := ((List.range 255).takeWhile fun i => name i ≠ 0).length

def entrySize (nameLen : ℕ) : ℕ := (8 + nameLen + 3) &&& (2 ^ 32 - 2 ^ 2)

def dirGet (blk : Bytes) (offset : ℕ) (f : DirField) : ℕ := ext4DirEntry.get blk offset f

/-- Filling the directory entry at `offset`. -/
def putEntry (blk : Bytes) (offset ino recLen fileType : ℕ) (name : Bytes) : Bytes :=
  let blk := ext4DirEntry.set blk offset .inode ino
  let blk := ext4DirEntry.set blk offset .recLen recLen
  let blk := ext4DirEntry.set blk offset .nameLen (nameLength name)
  let blk := ext4DirEntry.set blk offset .fileType fileType
  blk.blit (offset + ext4DirEntry.size) (nameLength name) name

/-- The scan of one directory block for an entry with `need` bytes to spare. -/
def findSlack (blk : Bytes) (blockSize need : ℕ) : ℕ → ℕ → Option ℕ
  | 0, _ => none
  | fuel + 1, offset =>
    if offset < blockSize then
      let recLen := dirGet blk offset .recLen
      if recLen = 0 then none
      else
        let actualSize := entrySize (dirGet blk offset .nameLen)
        if actualSize < recLen ∧ need ≤ recLen - actualSize then some offset
        else findSlack blk blockSize need fuel (offset + recLen)
    else none

/-- Shrinking the entry at `offset` and putting a new one into its slack. -/
def splitEntry (blk : Bytes) (offset ino fileType : ℕ) (name : Bytes) : Bytes :=
  let recLen := dirGet blk offset .recLen
  let actualSize := entrySize (dirGet blk offset .nameLen)
  putEntry (ext4DirEntry.set blk offset .recLen actualSize) (offset + actualSize) ino
    (recLen - actualSize) fileType name

namespace Ext4

/-- The scan of `ext4_add_dir_entry` over the directory blocks left: the block with room for the
entry, its content and the offset of the entry to split. -/
def scanDir (inode : Bytes) (need : ℕ) : List ℕ → Ext4 → Option (ℕ × Bytes × ℕ) × Ext4
  | [], s => (none, s)
  | b :: bs, s =>
    let (diskBlock, s) := s.getFileBlock inode b
    if diskBlock = 0 then scanDir inode need bs s
    else
      let (blk?, s) := s.readBlock diskBlock
      match blk? with
      | none => scanDir inode need bs s
      | some blk =>
        match findSlack blk s.fs.blockSize need s.fs.blockSize 0 with
        | none => scanDir inode need bs s
        | some offset => (some (diskBlock, blk, offset), s)

def blocksIn (s : Ext4) (size : ℕ) : ℕ := (size + s.fs.blockSize - 1) / s.fs.blockSize

/-- The tail of `ext4_add_dir_entry`: a new block for the directory. -/
def appendDirBlock (s : Ext4) (dirIno : ℕ) (dirInode name : Bytes) (ino fileType : ℕ) : ℤ × Ext4 :=
  let numBlocks := s.blocksIn (ext4Inode.get dirInode 0 .sizeLo)
  let (newBlock, s) := s.allocBlock (s.inodeGroup dirIno)
  if newBlock < 0 then (-1, s)
  else
    let newBlock := newBlock.toNat
    let (ret, s) := s.writeBlockRaw newBlock
      (putEntry (fun _ => 0) 0 ino s.fs.blockSize fileType name)
    if ret < 0 then (-1, (s.freeBlock newBlock).2)
    else
      let (ret, dirInode, s) := s.setFileBlock dirInode numBlocks newBlock dirIno
      if ret < 0 then (-1, (s.freeBlock newBlock).2)
      else
        let dirInode := ext4Inode.set dirInode 0 .sizeLo
          (ext4Inode.get dirInode 0 .sizeLo + s.fs.blockSize)
        let dirInode := ext4Inode.set dirInode 0 .blocksLo
          (ext4Inode.get dirInode 0 .blocksLo + s.fs.blockSize / 512)
        s.writeInode dirIno dirInode

def addDirEntry (s : Ext4) (dirIno : ℕ) (name : Bytes) (ino fileType : ℕ) : ℤ × Ext4 :=
  let (dirInode?, s) := s.readInode dirIno
  match dirInode? with
  | none => (-1, s)
  | some dirInode =>
    let (ok, s) := s.kmalloc
    if !ok then (-1, s)
    else
      let numBlocks := s.blocksIn (ext4Inode.get dirInode 0 .sizeLo)
      let (found, s) :=
        scanDir dirInode (entrySize (nameLength name)) (List.range numBlocks) s
      match found with
      | some (diskBlock, blk, offset) =>
        s.writeBlockRaw diskBlock (splitEntry blk offset ino fileType name)
      | none => s.appendDirBlock dirIno dirInode name ino fileType

/-- Getting the disk block behind a file block for writing, with the bytes the write starts from;
`none` ends the write. -/
def obtainBlock (s : Ext4) (inode : Bytes) (fileBlock ino : ℕ) :
    Option (ℕ × Bytes) × Bytes × Ext4 :=
  let (diskBlock, s) := s.getFileBlock inode fileBlock
  if diskBlock = 0 then
    let (newBlock, s) := s.allocBlock (s.inodeGroup ino)
    if newBlock < 0 then (none, inode, s)
    else
      let (ret, inode, s) := s.setFileBlock inode fileBlock newBlock.toNat ino
      if ret < 0 then (none, inode, (s.freeBlock newBlock.toNat).2)
      else
        let inode := ext4Inode.set inode 0 .blocksLo
          (ext4Inode.get inode 0 .blocksLo + s.fs.blockSize / 512)
        (some (newBlock.toNat, fun _ => 0), inode, s)
  else
    let (buf?, s) := s.readBlock diskBlock
    (buf?.map fun buf => (diskBlock, buf), inode, s)

/-- The copy loop of `ext4_write_file`; each turn writes at least one byte, so `len` turns are
enough. Returns the bytes written and the inode. -/
def writeLoop (ino : ℕ) (buf : Bytes) (offset len : ℕ) : ℕ → ℕ → Bytes → Ext4 → ℕ × Bytes × Ext4
  | 0, written, inode, s => (written, inode, s)
  | fuel + 1, written, inode, s =>
    if written < len then
      let pos := (offset + written) % 2 ^ 64
      let blockOffset := pos % s.fs.blockSize
      let (r, inode, s) := s.obtainBlock inode (pos / s.fs.blockSize) ino
      match r with
      | none => (written, inode, s)
      | some (diskBlock, blockBuf) =>
        let toWrite := min (s.fs.blockSize - blockOffset) (len - written)
        let blockBuf := blockBuf.blit blockOffset toWrite fun i => buf (written + i)
        let (ret, s) := s.writeBlockRaw diskBlock blockBuf
        if ret < 0 then (written, inode, s)
        else writeLoop ino buf offset len fuel (written + toWrite) inode s
    else (written, inode, s)

def writeFile (s : Ext4) (ino : ℕ) (buf : Bytes) (offset len : ℕ) : ℤ × Ext4 :=
  let (inode?, s) := s.readInode ino
  match inode? with
  | none => (-1, s)
  | some inode =>
    let (ok, s) := s.kmalloc
    if !ok then (-1, s)
    else
      let (written, inode, s) := writeLoop ino buf offset len len 0 inode s
      let inode :=
        if ext4Inode.get inode 0 .sizeLo < (offset + written) % 2 ^ 64 then
          ext4Inode.set inode 0 .sizeLo ((offset + written) % 2 ^ 64)
        else inode
      let inode := ext4Inode.set inode 0 .mtime 0
      (toInt written, (s.writeInode ino inode).2)

/-- The inode `ext4_create_file` writes. -/
def newInode (mode : ℕ) : Bytes :=
  let inode := ext4Inode.set (fun _ => 0) 0 .mode mode
  let inode := ext4Inode.set inode 0 .linksCount 1
  let inode := ext4Inode.set inode 0 .uid 0
  ext4Inode.set inode 0 .gid 0

/-- The entries `.` and `..` of a new directory, and its parent's link count. -/
def fillDir (s : Ext4) (newIno parentIno : ℕ) : Ext4 :=
  let dot : Bytes := fun i => if i = 0 then 46 else 0
  let dotdot : Bytes := fun i => if i < 2 then 46 else 0
  let (_, s) := s.addDirEntry newIno dot newIno 2
  let (_, s) := s.addDirEntry newIno dotdot parentIno 2
  let (parent?, s) := s.readInode parentIno
  match parent? with
  | none => s
  | some parent =>
    (s.writeInode parentIno
      (ext4Inode.set parent 0 .linksCount (ext4Inode.get parent 0 .linksCount + 1))).2

def createFile (s : Ext4) (parentIno : ℕ) (name : Bytes) (mode : ℕ) : ℤ × Ext4 :=
  let (newIno, s) := s.allocInode (s.inodeGroup parentIno)
  if newIno < 0 then (-1, s)
  else
    let (ret, s) := s.writeInode newIno.toNat (newInode mode)
    if ret < 0 then (-1, (s.freeInode newIno.toNat).2)
    else
      let fileType := if mode &&& ext4SIfdir ≠ 0 then 2 else 1
      let (ret, s) := s.addDirEntry parentIno name newIno.toNat fileType
      if ret < 0 then (-1, (s.freeInode newIno.toNat).2)
      else if mode &&& ext4SIfdir ≠ 0 then (newIno, s.fillDir newIno.toNat parentIno)
      else (newIno, s)

def syncSuperblock (s : Ext4) : ℤ × Ext4 :=
  let (ok, s) := s.kmalloc
  if !ok then (-1, s)
  else
    let sbBlock := if s.fs.blockSize = 1024 then 1 else 0
    let (buf?, s) := s.readBlock sbBlock
    match buf? with
    | none => (-1, s)
    | some buf =>
      let sbOffset := if s.fs.blockSize = 1024 then 0 else 1024
      s.writeBlockRaw sbBlock (buf.blit sbOffset ext4Superblock.size s.fs.sb)

/-- The copy loop of `ext4_read_file` into `buf`; returns the bytes read. -/
def readLoop (inode : Bytes) (offset len : ℕ) : ℕ → ℕ → Bytes → Ext4 → ℕ × Bytes × Ext4
  | 0, bytesRead, buf, s => (bytesRead, buf, s)
  | fuel + 1, bytesRead, buf, s =>
    if bytesRead < len then
      let pos := (offset + bytesRead) % 2 ^ 64
      let blockOffset := pos % s.fs.blockSize
      let (diskBlock, s) := s.getFileBlock inode (pos / s.fs.blockSize)
      if diskBlock = 0 then (bytesRead, buf, s)
      else
        let (blockBuf?, s) := s.readBlock diskBlock
        match blockBuf? with
        | none => (bytesRead, buf, s)
        | some blockBuf =>
          let toCopy := min (s.fs.blockSize - blockOffset) (len - bytesRead)
          let buf := buf.blit bytesRead toCopy fun i => blockBuf (blockOffset + i)
          readLoop inode offset len fuel (bytesRead + toCopy) buf s
    else (bytesRead, buf, s)

def readFile (s : Ext4) (ino : ℕ) (buf : Bytes) (offset len : ℕ) : ℤ × Bytes × Ext4 :=
  let (inode?, s) := s.readInode ino
  match inode? with
  | none => (-1, buf, s)
  | some inode =>
    let fileSize := ext4Inode.get inode 0 .sizeLo
    if fileSize ≤ offset then (0, buf, s)
    else
      let len := if fileSize < (offset + len) % 2 ^ 64 then fileSize - offset else len
      let (ok, s) := s.kmalloc
      if !ok then (-1, buf, s)
      else
        let (bytesRead, buf, s) := readLoop inode offset len len 0 buf s
        (toInt bytesRead, buf, s)

def releaseBlocks (inode : Bytes) : List ℕ → Ext4 → Ext4
  | [], s => s
  | b :: bs, s =>
    let (diskBlock, s) := s.getFileBlock inode b
    releaseBlocks inode bs (if diskBlock ≠ 0 then (s.freeBlock diskBlock).2 else s)

def vfsTruncate (s : Ext4) (ino size : ℕ) : ℤ × Ext4 :=
  let (inode?, s) := s.readInode ino
  match inode? with
  | none => (-1, s)
  | some inode =>
    let oldSize := ext4Inode.get inode 0 .sizeLo
    let s :=
      if size < oldSize then
        let newBlocks := s.blocksIn size
        releaseBlocks inode (List.range' newBlocks (s.blocksIn oldSize - newBlocks)) s
      else s
    let inode := ext4Inode.set inode 0 .sizeLo size
    let inode := ext4Inode.set inode 0 .sizeHi (size / 2 ^ 32)
    s.writeInode ino inode

def vfsWrite (s : Ext4) (ino : ℕ) (buf : Bytes) (offset len : ℕ) : ℤ × Ext4 :=
  s.writeFile ino buf offset len

def vfsCreate (s : Ext4) (parentIno : ℕ) (name : Bytes) (mode : ℕ) : ℤ × Ext4 :=
  s.createFile parentIno name mode

def vfsMkdir (s : Ext4) (parentIno : ℕ) (name : Bytes) (mode : ℕ) : ℤ × Ext4 :=
  s.createFile parentIno name (mode ||| ext4SIfdir)

end Ext4

end GcAos.Fs
