import GcAos.Lib.Bytes
import GcAos.Lib.Chain

/-! The RAM file system of `kernel/fs/ramfs.c`. Inodes are heap objects that refer to each other
by address, with 0 for the null pointer. A call of the model is `none` where the code loops for
ever or follows a pointer to no object. -/

namespace GcAos.Fs
open Lib

def ramfsMaxName : ℕ := 255

def sIfmt : ℕ := 0o170000
def sIfreg : ℕ := 0o100000
def sIfdir : ℕ := 0o040000

def ePERM : ℤ := 1
def eNOENT : ℤ := 2
def eNOMEM : ℤ := 12
def eEXIST : ℤ := 17
def eNOTDIR : ℤ := 20
def eISDIR : ℤ := 21
def eNOTEMPTY : ℤ := 39

def sIsdir (mode : ℕ) : Bool := mode &&& sIfmt == sIfdir

abbrev Str := List UInt8

def slash : UInt8 := 0x2f

structure RamfsInode where
  ino : ℕ
  mode : ℕ
  uid : ℕ := 0
  gid : ℕ := 0
  size : ℕ := 0
  -- `none` is the null pointer
  data : Option Bytes := none
  dataCapacity : ℕ := 0
  parent : ℕ := 0
  children : ℕ := 0
  sibling : ℕ := 0
  name : Str

structure Ramfs where
  inodes : ℕ → Option RamfsInode
  root : ℕ
  nextIno : ℕ
  inodeCount : ℕ
  -- what the next calls of `kmalloc` return, 0 when it fails
  kmalloc : List ℕ

inductive FileOps
  | ramfsFileOps | ramfsDirOps
  deriving DecidableEq

/-- `struct inode` of the VFS. It is filled once and never freed, so it is a value here. -/
structure Inode where
  iIno : ℕ
  iMode : ℕ
  iSize : ℕ
  iFop : FileOps
  iPrivate : ℕ

namespace Ramfs

def kzalloc (s : Ramfs) : ℕ × Ramfs := (s.kmalloc.headD 0, { s with kmalloc := s.kmalloc.tail })

def set (s : Ramfs) (a : ℕ) (i : RamfsInode) : Ramfs :=
  { s with inodes := Function.update s.inodes a (some i) }

/-- An assignment to fields of the inode at `a`. -/
def modify (s : Ramfs) (a : ℕ) (f : RamfsInode → RamfsInode) : Option Ramfs :=
  (s.inodes a).map fun i => s.set a (f i)

end Ramfs

def ramfsAllocInode (s : Ramfs) (mode : ℕ) (name : Str) : ℕ × Ramfs :=
  let (inode, s) := s.kzalloc
  if inode = 0 then (0, s)
  else
    (inode, { s.set inode { ino := s.nextIno, mode := mode, name := name.take ramfsMaxName } with
      nextIno := s.nextIno + 1
      inodeCount := s.inodeCount + 1 })

def ramfsFreeInode (s : Ramfs) (inode : ℕ) : Ramfs :=
  if inode = 0 then s
  else { s with inodes := Function.update s.inodes inode none, inodeCount := s.inodeCount - 1 }

/-- The loop of `ramfs_lookup_child` over the siblings from `child` on. -/
def lookupSiblings (s : Ramfs) (name : Str) : ℕ → ℕ → Option ℕ
  | 0, _ => none
  | fuel + 1, child =>
    if child = 0 then some 0
    else do
      let c ← s.inodes child
      if c.name = name then some child else lookupSiblings s name fuel c.sibling

/-- `next_ino` inodes have been made, so a loop that visits more inodes than that is caught in a
cycle. -/
def ramfsLookupChild (s : Ramfs) (dir : ℕ) (name : Str) : Option ℕ := do
  let d ← s.inodes dir
  if !sIsdir d.mode then some 0 else lookupSiblings s name s.nextIno d.children

def ramfsAddChild (s : Ramfs) (dir child : ℕ) : Option (ℤ × Ramfs) := do
  let d ← s.inodes dir
  if !sIsdir d.mode then some (-eNOTDIR, s)
  else
    let s ← s.modify child fun c => { c with parent := dir, sibling := d.children }
    let s ← s.modify dir fun d => { d with children := child }
    some (0, s)

/-- `none` in the result says that `dentry->d_inode` is still null. -/
def ramfsLookup (s : Ramfs) (dir : Inode) (dName : Str) : Option (Option Inode × Ramfs) := do
  let ramChild ← ramfsLookupChild s dir.iPrivate dName
  if ramChild = 0 then some (none, s)
  else
    let (inode, s) := s.kzalloc
    if inode = 0 then some (none, s)
    else
      let c ← s.inodes ramChild
      some (some {
        iIno := c.ino
        iMode := c.mode
        iSize := c.size
        iFop := if sIsdir c.mode then .ramfsDirOps else .ramfsFileOps
        iPrivate := ramChild }, s)

/-- `ramfs_create` and `ramfs_mkdir` differ in the type bits of the mode and in the file
operations. What `ramfs_add_child` returns is ignored. -/
def ramfsMake (typ : ℕ) (fop : FileOps) (s : Ramfs) (dir : Inode) (dName : Str) (mode : ℕ) :
    Option (ℤ × Option Inode × Ramfs) := do
  let (ramFile, s) := ramfsAllocInode s (typ ||| mode) dName
  if ramFile = 0 then some (-eNOMEM, none, s)
  else
    let (_, s) ← ramfsAddChild s dir.iPrivate ramFile
    let (inode, s) := s.kzalloc
    if inode = 0 then some (-eNOMEM, none, s)
    else
      let f ← s.inodes ramFile
      some (0, some { iIno := f.ino, iMode := f.mode, iSize := 0, iFop := fop, iPrivate := ramFile },
        s)

def ramfsCreate := ramfsMake sIfreg .ramfsFileOps

def ramfsMkdir := ramfsMake sIfdir .ramfsDirOps

/-- The loop of `ramfs_rename` that looks for the inode before `target`. -/
def findBefore (s : Ramfs) (target : ℕ) : ℕ → ℕ → Option ℕ
  | 0, _ => none
  | fuel + 1, curr =>
    if curr = 0 then some 0
    else do
      let c ← s.inodes curr
      if c.sibling ≠ target then findBefore s target fuel c.sibling else some curr

/-- Step 1 of `ramfs_rename`. -/
def renameUnlink (s : Ramfs) (oldRamDir target : ℕ) : Option Ramfs := do
  let o ← s.inodes oldRamDir
  let t ← s.inodes target
  if o.children = target then s.modify oldRamDir fun o => { o with children := t.sibling }
  else
    let curr ← findBefore s target s.nextIno o.children
    if curr ≠ 0 then s.modify curr fun c => { c with sibling := t.sibling } else some s

/-- Step 2 of `ramfs_rename`. -/
def renameLink (s : Ramfs) (oldRamDir newRamDir target : ℕ) : Option Ramfs := do
  if oldRamDir ≠ newRamDir then
    let n ← s.inodes newRamDir
    let s ← s.modify target fun t => { t with sibling := n.children }
    let s ← s.modify newRamDir fun n => { n with children := target }
    s.modify target fun t => { t with parent := newRamDir }
  else
    let o ← s.inodes oldRamDir
    let s ← s.modify target fun t => { t with sibling := o.children }
    s.modify oldRamDir fun o => { o with children := target }

def ramfsRename (s : Ramfs) (oldDir oldInode newDir : Inode) (newName : Str) :
    Option (ℤ × Ramfs) := do
  let oldRamDir := oldDir.iPrivate
  let newRamDir := newDir.iPrivate
  let target := oldInode.iPrivate
  if target = 0 then some (-eNOENT, s)
  else
    let found ← ramfsLookupChild s newRamDir newName
    if found ≠ 0 then some (-eEXIST, s)
    else
      let s ← renameUnlink s oldRamDir target
      let s ← renameLink s oldRamDir newRamDir target
      let s ← s.modify target fun t => { t with name := newName.take ramfsMaxName }
      some (0, s)

/-- The pointer field that `prev` points to in `ramfs_unlink` and `ramfs_rmdir`. -/
inductive Link
  | children (dir : ℕ)
  | sibling (inode : ℕ)

namespace Link

def read (s : Ramfs) : Link → Option ℕ
  | .children a => (s.inodes a).map RamfsInode.children
  | .sibling a => (s.inodes a).map RamfsInode.sibling

def write (s : Ramfs) : Link → ℕ → Option Ramfs
  | .children a, p => s.modify a fun i => { i with children := p }
  | .sibling a, p => s.modify a fun i => { i with sibling := p }

end Link

def removeChild (s : Ramfs) (target : ℕ) : ℕ → Link → Option Ramfs
  | 0, _ => none
  | fuel + 1, prev => do
    let p ← prev.read s
    if p = 0 then some s
    else if p = target then
      let t ← s.inodes target
      prev.write s t.sibling
    else removeChild s target fuel (.sibling p)

def ramfsUnlink (s : Ramfs) (dir : Inode) (dName : Str) : Option (ℤ × Ramfs) := do
  let ramDir := dir.iPrivate
  let target ← ramfsLookupChild s ramDir dName
  if target = 0 then some (-eNOENT, s)
  else
    let t ← s.inodes target
    if sIsdir t.mode then some (-eISDIR, s)
    else
      let s ← removeChild s target s.nextIno (.children ramDir)
      some (0, ramfsFreeInode s target)

def ramfsRmdir (s : Ramfs) (dir : Inode) (dName : Str) : Option (ℤ × Ramfs) := do
  let ramDir := dir.iPrivate
  let target ← ramfsLookupChild s ramDir dName
  if target = 0 then some (-eNOENT, s)
  else
    let t ← s.inodes target
    if !sIsdir t.mode then some (-eNOTDIR, s)
    else if t.children ≠ 0 then some (-eNOTEMPTY, s)
    else
      let s ← removeChild s target s.nextIno (.children ramDir)
      some (0, ramfsFreeInode s target)

def ramfsMount (s : Ramfs) : Option Ramfs :=
  let (root, s) := ramfsAllocInode { s with nextIno := 1, inodeCount := 0 } (sIfdir ||| 0o755) []
  if root = 0 then none else some { s with root := root }

def lastSlash (path : Str) : Option ℕ :=
  path.zipIdx.foldl (fun last c => if c.1 = slash then some c.2 else last) none

def skipSlash (path : Str) : Str := if path.head? = some slash then path.tail else path

/-- The directory, 0 when there is none, and the file name. Everything before the last slash is
looked up as one name in the root. -/
def ramfsGetParentDir (s : Ramfs) (path : Str) : Option (ℕ × Str) :=
  let path := skipSlash path
  match lastSlash path with
  | none => some (s.root, path.take ramfsMaxName)
  | some len => do
    let dir ← ramfsLookupChild s s.root ((path.take len).take ramfsMaxName)
    some (dir, (path.drop (len + 1)).take ramfsMaxName)

def bytesOf (content : List UInt8) : Bytes := fun i => content.getD i 0

/-- The content of a new file, left out if there is no memory for it. -/
def fillContent (s : Ramfs) (file : ℕ) : Option Str → Option Ramfs
  | none => some s
  | some content =>
    let (data, s) := s.kzalloc
    if data = 0 then some s
    else s.modify file fun f => { f with
      data := some (bytesOf content)
      size := content.length
      dataCapacity := content.length }

def ramfsCreateFile (s : Ramfs) (path : Str) (mode : ℕ) (content : Option Str) :
    Option (ℤ × Ramfs) := do
  if s.root = 0 then some (-eNOENT, s)
  else
    let (parent, filename) ← ramfsGetParentDir s path
    let (parent, filename) :=
      if parent = 0 then (s.root, (skipSlash path).take ramfsMaxName) else (parent, filename)
    let (file, s) := ramfsAllocInode s (sIfreg ||| mode) filename
    if file = 0 then some (-eNOMEM, s)
    else
      let s ← fillContent s file content
      let (_, s) ← ramfsAddChild s parent file
      some (0, s)

def ramfsCreateFileBytes (s : Ramfs) (path : Str) (mode : ℕ) (data : Option Bytes) (size : ℕ) :
    Option (ℤ × Ramfs) := do
  if s.root = 0 then some (-eNOENT, s)
  else
    let (parent, filename) ← ramfsGetParentDir s path
    if parent = 0 then some (-eNOENT, s)
    else
      let (file, s) := ramfsAllocInode s (sIfreg ||| mode) filename
      if file = 0 then some (-eNOMEM, s)
      else if data.isSome ∧ 0 < size then
        let (buf, s) := s.kzalloc
        if buf = 0 then some (-eNOMEM, s)
        else
          let s ← s.modify file fun f => { f with data := data, size := size, dataCapacity := size }
          let (_, s) ← ramfsAddChild s parent file
          some (0, s)
      else
        let (_, s) ← ramfsAddChild s parent file
        some (0, s)

def ramfsCreateDir (s : Ramfs) (path : Str) (mode : ℕ) : Option (ℤ × Ramfs) := do
  if s.root = 0 then some (-eNOENT, s)
  else
    let (dir, s) := ramfsAllocInode s (sIfdir ||| mode) path
    if dir = 0 then some (-eNOMEM, s)
    else
      let (_, s) ← ramfsAddChild s s.root dir
      some (0, s)

end GcAos.Fs
