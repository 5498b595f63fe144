import GcAos.Lib.Exec
import GcAos.Fs.Ramfs

/-! The path operations of `kernel/fs/vfs.c` with the ramfs mounted at the root. Every inode has
the ramfs operations, so the checks for a missing operation never fail here. -/

namespace GcAos.Fs
open Lib

def nameMax : ℕ := 255
def oCreat : ℕ := 0x0040

structure File where
  fDentry : Inode
  fOp : FileOps
  fPos : ℕ
  fFlags : ℕ
  fMode : ℕ
  fCount : ℤ
  privateData : ℕ

/-- The static `vfs_root_inode` of `ramfs_mount`. -/
def rootInode (s : Ramfs) : Inode where
  iIno := 1
  iMode := sIfdir ||| 0o755
  iSize := 0
  iFop := .ramfsDirOps
  iPrivate := s.root

def skipSlashes (p : Str) : Str := p.dropWhile (· = slash)

/-- The next component, cut off at `NAME_MAX`, and what stands behind the slashes after it. -/
def nextComponent (p : Str) : Str × Str :=
  ((p.takeWhile (· ≠ slash)).take nameMax, skipSlashes (p.dropWhile (· ≠ slash)))

/-- The loop of `vfs_lookup_parent`; each round takes a character of the path at least. -/
def lookupParentFrom : ℕ → Inode → Str → Ramfs → Option (Option (Inode × Str) × Ramfs)
  | 0, _, _, _ => none
  | fuel + 1, curr, p, s =>
    if p = [] then some (none, s)
    else
      let (buf, p) := nextComponent p
      if p = [] then some (some (curr, buf), s)
      else
        let (child, s) := s.kzalloc
        if child = 0 then some (none, s)
        else do
          let (dInode, s) ← ramfsLookup s curr buf
          match dInode with
          | none => some (none, s)
          | some inode => lookupParentFrom fuel inode p s

/-- The parent and the last component, `none` for the null pointer. -/
def vfsLookupParent (s : Ramfs) (path : Str) : Option (Option (Inode × Str) × Ramfs) :=
  lookupParentFrom (path.length + 1) (rootInode s) (skipSlashes path) s

/-- The parent that `vfs_open` works with: the root for a path of one name when the lookup of the
parent fails. -/
def openParent (s : Ramfs) (path : Str) : Option (Option (Inode × Str) × Ramfs) := do
  let (parent, s) ← vfsLookupParent s path
  match parent with
  | some found => some (some found, s)
  | none =>
    let p := skipSlashes path
    if p.dropWhile (· ≠ slash) ≠ [] then some (none, s)
    else some (some (rootInode s, (p.takeWhile (· ≠ slash)).take nameMax), s)

/-- The last lines of `vfs_open`, once the dentry has its inode. -/
def openFile (s : Ramfs) (inode : Inode) (flags mode : ℕ) : Option File × Ramfs :=
  let (f, s) := s.kzalloc
  if f = 0 then (none, s)
  else
    (some {
      fDentry := inode
      fOp := inode.iFop
      fPos := 0
      fFlags := flags
      fMode := mode
      fCount := 1
      privateData := inode.iPrivate }, s)

def vfsOpen (s : Ramfs) (path : Str) (flags mode : ℕ) : Option (Option File × Ramfs) := do
  if path = [slash] then
    match openFile s (rootInode s) flags mode with
    | (none, _) => none
    | (some f, s) => some (some f, s)
  else
    let (parent, s) ← openParent s path
    match parent with
    | none => some (none, s)
    | some (parent, name) =>
      let (child, s) := s.kzalloc
      if child = 0 then none
      else
        let (dInode, s) ← ramfsLookup s parent name
        match dInode with
        | some inode => some (openFile s inode flags mode)
        | none =>
          if flags &&& oCreat = 0 then some (none, s)
          else
            let (ret, dInode, s) ← ramfsCreate s parent name mode
            if ret ≠ 0 then some (none, s)
            else
              let inode ← dInode
              some (openFile s inode flags mode)

/-- `vfs_create` and `vfs_mkdir` differ in the operation of the parent that they call. -/
def vfsMake (make : Ramfs → Inode → Str → ℕ → Option (ℤ × Option Inode × Ramfs)) (s : Ramfs)
    (path : Str) (mode : ℕ) : Option (ℤ × Ramfs) := do
  let (parent, s) ← vfsLookupParent s path
  match parent with
  | none => some (-eNOENT, s)
  | some (parent, name) =>
    let (child, s) := s.kzalloc
    if child = 0 then none
    else
      let (ret, _, s) ← make s parent name mode
      some (ret, s)

def vfsCreate := vfsMake ramfsCreate

def vfsMkdir := vfsMake ramfsMkdir

/-- `vfs_rmdir` and `vfs_unlink` differ in the modes they refuse, with which error, and in the
operation of the parent that they call. -/
def vfsRemove (refuse : ℕ → Bool) (err : ℤ) (remove : Ramfs → Inode → Str → Option (ℤ × Ramfs))
    (s : Ramfs) (path : Str) : Option (ℤ × Ramfs) := do
  let (parent, s) ← vfsLookupParent s path
  match parent with
  | none => some (-eNOENT, s)
  | some (parent, name) =>
    let (child, s) := s.kzalloc
    if child = 0 then some (-eNOMEM, s)
    else
      let (dInode, s) ← ramfsLookup s parent name
      match dInode with
      | none => some (-eNOENT, s)
      | some inode => if refuse inode.iMode then some (-err, s) else remove s parent name

def vfsRmdir := vfsRemove (fun mode => !sIsdir mode) eNOTDIR ramfsRmdir

def vfsUnlink := vfsRemove sIsdir eISDIR ramfsUnlink

def vfsRename (s : Ramfs) (old new : Str) : Option (ℤ × Ramfs) := do
  let (oldParent, s) ← vfsLookupParent s old
  match oldParent with
  | none => some (-eNOENT, s)
  | some (oldParent, oldName) =>
    let (newParent, s) ← vfsLookupParent s new
    match newParent with
    | none => some (-eNOENT, s)
    | some (newParent, newName) =>
      let (oldChild, s) := s.kzalloc
      if oldChild = 0 then none
      else
        let (dInode, s) ← ramfsLookup s oldParent oldName
        match dInode with
        | none => some (-eNOENT, s)
        | some inode =>
          let (newChild, s) := s.kzalloc
          if newChild = 0 then none else ramfsRename s oldParent inode newParent newName

end GcAos.Fs
