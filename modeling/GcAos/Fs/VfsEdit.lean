import GcAos.Fs.RamfsEdit
import GcAos.Fs.Vfs

/-! The edits of the directory tree that a call of the VFS leads to, and when it leads to them. -/

namespace GcAos.Fs
open Lib Ramfs

variable {s s' s₁ : Ramfs} {kids : ℕ → List ℕ} {name path : Str} {dir p : Inode} {mode : ℕ}

/-- Only results of `kmalloc` have been used up. -/
structure Reads (s s' : Ramfs) : Prop where
  core : s'.core = s.core
  kmalloc : s'.kmalloc ⊆ s.kmalloc

theorem Reads.refl (s : Ramfs) : Reads s s := ⟨rfl, List.Subset.refl _⟩

theorem Reads.trans (h : Reads s s₁) (h' : Reads s₁ s') : Reads s s' :=
  ⟨h'.core.trans h.core, List.Subset.trans h'.kmalloc h.kmalloc⟩

theorem reads_kzalloc (s : Ramfs) : Reads s s.kzalloc.2 := ⟨rfl, List.tail_subset _⟩

/-- `kmalloc` returns no inode that is still in use. -/
def FreshMem (s : Ramfs) : Prop := ∀ a ∈ s.kmalloc, a ≠ 0 → s.live a = false

theorem FreshMem.reads (hm : FreshMem s) (h : Reads s s') : FreshMem s' := by
  intro a ha h0
  rw [live_of_core h.core]
  exact hm a (h.kmalloc ha) h0

theorem FreshMem.head (hm : FreshMem s) (h : s.kmalloc.headD 0 ≠ 0) :
    s.live (s.kmalloc.headD 0) = false := by
  refine hm _ ?_ h
  cases hk : s.kmalloc with
  | nil => rw [hk] at h; exact absurd rfl h
  | cons a l => exact List.mem_cons_self

theorem ramfsLookupChild_of_core (h : s'.core = s.core) (d : ℕ) (name : Str) :
    ramfsLookupChild s' d name = ramfsLookupChild s d name := by
  have hloop : ∀ fuel c, lookupSiblings s' name fuel c = lookupSiblings s name fuel c := by
    intro fuel
    induction fuel with
    | zero => exact fun _ => rfl
    | succ fuel ih =>
      intro c
      unfold lookupSiblings
      rw [inodes_of_core h]
      simp only [ih]
  unfold ramfsLookupChild
  rw [inodes_of_core h, nextIno_of_core h]
  simp only [hloop]

theorem ramfsLookup_effect {r : Option Inode} (hs : s.Wf kids) (hd : s.live dir.iPrivate = true)
    (h : ramfsLookup s dir name = some (r, s')) :
    Reads s s' ∧ ∀ inode, r = some inode →
      ramfsLookupChild s dir.iPrivate name = some inode.iPrivate ∧
      inode.iPrivate ∈ kids dir.iPrivate ∧ sIsdir inode.iMode = s.isDir inode.iPrivate := by
  obtain ⟨c, hlook, hcases⟩ := ramfsLookupChild_cases hs hd name
  unfold ramfsLookup at h
  rw [hlook] at h
  simp only [Option.bind_eq_bind, Option.bind_some] at h
  rcases hcases with ⟨rfl, -⟩ | ⟨hc0, -, hck, -⟩
  · obtain ⟨rfl, rfl⟩ := pair_inj h
    exact ⟨Reads.refl s, fun _ h => absurd h (by simp)⟩
  · rw [if_neg hc0] at h
    by_cases h0 : s.kzalloc.1 = 0
    · rw [if_pos h0] at h
      obtain ⟨rfl, rfl⟩ := pair_inj h
      exact ⟨reads_kzalloc s, fun _ h => absurd h (by simp)⟩
    · obtain ⟨i, hi, -, -, hdir⟩ := inodes_eq (hs.kid_live _ c hck)
      have hi' : s.kzalloc.2.inodes c = some i := hi
      rw [if_neg h0, hi', Option.bind_some] at h
      obtain ⟨rfl, rfl⟩ := pair_inj h
      refine ⟨reads_kzalloc s, ?_⟩
      intro inode hinode
      obtain rfl := Option.some.inj hinode
      exact ⟨hlook, hck, hdir.symm⟩

theorem lookupParentFrom_effect {fuel : ℕ} {r : Option (Inode × Str)} (hs : s.Wf kids)
    (hd : s.live dir.iPrivate = true) (h : lookupParentFrom fuel dir path s = some (r, s')) :
    Reads s s' ∧ ∀ p name, r = some (p, name) → s.live p.iPrivate = true := by
  induction fuel generalizing dir path s with
  | zero => exact absurd h (by simp [lookupParentFrom])
  | succ fuel ih =>
    unfold lookupParentFrom at h
    by_cases hp : path = []
    · rw [if_pos hp] at h
      obtain ⟨rfl, rfl⟩ := pair_inj h
      exact ⟨Reads.refl _, fun _ _ h => absurd h (by simp)⟩
    rw [if_neg hp] at h
    dsimp only at h
    by_cases hrest : (nextComponent path).2 = []
    · rw [if_pos hrest] at h
      obtain ⟨rfl, rfl⟩ := pair_inj h
      refine ⟨Reads.refl _, ?_⟩
      intro p name hp
      rw [← (pair_inj hp).1]
      exact hd
    rw [if_neg hrest] at h
    by_cases h0 : s.kzalloc.1 = 0
    · rw [if_pos h0] at h
      obtain ⟨rfl, rfl⟩ := pair_inj h
      exact ⟨reads_kzalloc s, fun _ _ h => absurd h (by simp)⟩
    rw [if_neg h0, Option.bind_eq_bind, Option.bind_eq_some_iff] at h
    obtain ⟨⟨dInode, s₂⟩, hlook, h⟩ := h
    have hs₁ : s.kzalloc.2.Wf kids := hs.of_core rfl
    obtain ⟨hreads, hfound⟩ := ramfsLookup_effect hs₁ hd hlook
    have hr₂ : Reads s s₂ := (reads_kzalloc s).trans hreads
    cases dInode with
    | none =>
      obtain ⟨rfl, rfl⟩ := pair_inj h
      exact ⟨hr₂, fun _ _ h => absurd h (by simp)⟩
    | some inode =>
      obtain ⟨-, hmem, -⟩ := hfound inode rfl
      have hlive : s₂.live inode.iPrivate = true := by
        rw [live_of_core hr₂.core]
        exact hs.kid_live _ _ hmem
      obtain ⟨hr', hp'⟩ := ih (hs.of_core hr₂.core) hlive h
      refine ⟨hr₂.trans hr', ?_⟩
      intro p name hp
      rw [← live_of_core hr₂.core]
      exact hp' p name hp

theorem vfsLookupParent_effect {r : Option (Inode × Str)} (hs : s.Wf kids)
    (h : vfsLookupParent s path = some (r, s')) :
    Reads s s' ∧ ∀ p name, r = some (p, name) → s.live p.iPrivate = true :=
  lookupParentFrom_effect hs (live_of_isDir hs.root_dir) h

theorem openParent_effect {r : Option (Inode × Str)} (hs : s.Wf kids)
    (h : openParent s path = some (r, s')) :
    Reads s s' ∧ ∀ p name, r = some (p, name) → s.live p.iPrivate = true := by
  unfold openParent at h
  rw [Option.bind_eq_bind, Option.bind_eq_some_iff] at h
  obtain ⟨⟨parent, s₁⟩, hlook, h⟩ := h
  obtain ⟨hr, hp⟩ := vfsLookupParent_effect hs hlook
  cases parent with
  | some found =>
    obtain ⟨rfl, rfl⟩ := pair_inj h
    exact ⟨hr, hp⟩
  | none =>
    dsimp only at h
    split at h
    · obtain ⟨rfl, rfl⟩ := pair_inj h
      exact ⟨hr, fun _ _ h => absurd h (by simp)⟩
    · obtain ⟨rfl, rfl⟩ := pair_inj h
      refine ⟨hr, ?_⟩
      intro p name hpn
      rw [← (pair_inj hpn).1]
      show s.live s₁.root = true
      rw [root_of_core hr.core]
      exact live_of_isDir hs.root_dir

inductive VfsCall
  | open (path : Str) (flags mode : ℕ)
  | create (path : Str) (mode : ℕ)
  | mkdir (path : Str) (mode : ℕ)
  | rename (old new : Str)
  | unlink (path : Str)
  | rmdir (path : Str)

/-- The calls that change the name space, with those that fill the ramfs at boot. -/
inductive FsCall
  | vfs (c : VfsCall)
  | createFile (path : Str) (mode : ℕ) (content : Option Str)
  | createFileBytes (path : Str) (mode : ℕ) (data : Option Bytes) (size : ℕ)
  | createDir (path : Str) (mode : ℕ)

def VfsCall.run (s : Ramfs) : VfsCall → Option Ramfs
  | .open path flags mode => (vfsOpen s path flags mode).map Prod.snd
  | .create path mode => (vfsCreate s path mode).map Prod.snd
  | .mkdir path mode => (vfsMkdir s path mode).map Prod.snd
  | .rename old new => (vfsRename s old new).map Prod.snd
  | .unlink path => (vfsUnlink s path).map Prod.snd
  | .rmdir path => (vfsRmdir s path).map Prod.snd

def FsCall.run (s : Ramfs) : FsCall → Option Ramfs
  | .vfs c => c.run s
  | .createFile path mode content => (ramfsCreateFile s path mode content).map Prod.snd
  | .createFileBytes path mode data size => (ramfsCreateFileBytes s path mode data size).map Prod.snd
  | .createDir path mode => (ramfsCreateDir s path mode).map Prod.snd

inductive Edit
  | make (dir addr mode : ℕ) (name : Str)
  | move (old target new : ℕ) (name : Str)
  | remove (dir target : ℕ)

/-- When a call comes to the point where it edits the tree, and how. The address of a new inode is
the one `kmalloc` returns there. -/
inductive Edits (s : Ramfs) : FsCall → Edit → Prop
  | create {path name : Str} {mode : ℕ} {p : Inode} {s₁ : Ramfs} :
      vfsLookupParent s path = some (some (p, name), s₁) → s₁.kzalloc.2.kmalloc.headD 0 ≠ 0 →
      Edits s (.vfs (.create path mode))
        (.make p.iPrivate (s₁.kzalloc.2.kmalloc.headD 0) (sIfreg ||| mode) name)
  | mkdir {path name : Str} {mode : ℕ} {p : Inode} {s₁ : Ramfs} :
      vfsLookupParent s path = some (some (p, name), s₁) → s₁.kzalloc.2.kmalloc.headD 0 ≠ 0 →
      Edits s (.vfs (.mkdir path mode))
        (.make p.iPrivate (s₁.kzalloc.2.kmalloc.headD 0) (sIfdir ||| mode) name)
  | open {path name : Str} {flags mode : ℕ} {p : Inode} {s₁ s₂ : Ramfs} :
      path ≠ [slash] → openParent s path = some (some (p, name), s₁) → flags &&& oCreat ≠ 0 →
      ramfsLookup s₁.kzalloc.2 p name = some (none, s₂) → s₂.kmalloc.headD 0 ≠ 0 →
      Edits s (.vfs (.open path flags mode))
        (.make p.iPrivate (s₂.kmalloc.headD 0) (sIfreg ||| mode) name)
  | rename {old new oldName newName : Str} {o n t : Inode} {s₁ s₂ s₃ : Ramfs} :
      vfsLookupParent s old = some (some (o, oldName), s₁) →
      vfsLookupParent s₁ new = some (some (n, newName), s₂) →
      ramfsLookup s₂.kzalloc.2 o oldName = some (some t, s₃) →
      ramfsLookupChild s n.iPrivate newName = some 0 →
      Edits s (.vfs (.rename old new)) (.move o.iPrivate t.iPrivate n.iPrivate newName)
  | unlink {path name : Str} {p : Inode} {t : ℕ} {s₁ : Ramfs} :
      vfsLookupParent s path = some (some (p, name), s₁) →
      ramfsLookupChild s p.iPrivate name = some t → t ≠ 0 → s.isDir t = false →
      Edits s (.vfs (.unlink path)) (.remove p.iPrivate t)
  | rmdir {path name : Str} {p : Inode} {t : ℕ} {s₁ : Ramfs} :
      vfsLookupParent s path = some (some (p, name), s₁) →
      ramfsLookupChild s p.iPrivate name = some t → t ≠ 0 → s.children t = 0 →
      Edits s (.vfs (.rmdir path)) (.remove p.iPrivate t)
  | createFile {path name : Str} {mode d : ℕ} {content : Option Str} :
      ramfsGetParentDir s path = some (d, name) → d ≠ 0 → s.kmalloc.headD 0 ≠ 0 →
      Edits s (.createFile path mode content) (.make d (s.kmalloc.headD 0) (sIfreg ||| mode) name)
  | createFileRoot {path name : Str} {mode : ℕ} {content : Option Str} :
      ramfsGetParentDir s path = some (0, name) → s.kmalloc.headD 0 ≠ 0 →
      Edits s (.createFile path mode content)
        (.make s.root (s.kmalloc.headD 0) (sIfreg ||| mode) ((skipSlash path).take ramfsMaxName))
  | createFileBytes {path name : Str} {mode d size : ℕ} {data : Option Bytes} :
      ramfsGetParentDir s path = some (d, name) → d ≠ 0 → s.kmalloc.headD 0 ≠ 0 →
      (data.isSome ∧ 0 < size → s.kzalloc.2.kmalloc.headD 0 ≠ 0) →
      Edits s (.createFileBytes path mode data size)
        (.make d (s.kmalloc.headD 0) (sIfreg ||| mode) name)
  -- without memory for the data the new inode stays behind, entered nowhere
  | createFileLeak {path name : Str} {mode d size : ℕ} {data : Option Bytes} :
      ramfsGetParentDir s path = some (d, name) → d ≠ 0 → s.kmalloc.headD 0 ≠ 0 →
      data.isSome ∧ 0 < size → s.kzalloc.2.kmalloc.headD 0 = 0 →
      Edits s (.createFileBytes path mode data size)
        (.make 0 (s.kmalloc.headD 0) (sIfreg ||| mode) name)
  | createDir {path : Str} {mode : ℕ} :
      s.kmalloc.headD 0 ≠ 0 →
      Edits s (.createDir path mode) (.make s.root (s.kmalloc.headD 0) (sIfdir ||| mode) path)

/-- What an edit does to the child lists. An inode that is removed has no children, unless it is
no directory. -/
def Edit.Effect (s : Ramfs) (kids : ℕ → List ℕ) (s' : Ramfs) (kids' : ℕ → List ℕ) : Edit → Prop
  | .make dir addr mode name => Made s kids dir addr mode name s' kids'
  | .move old target new name => Moved s kids old target new name s' kids'
  | .remove dir target => Removed s kids dir target s' kids' ∧
      (s.isDir target = false ∨ kids target = [])

def Outcome (s : Ramfs) (kids : ℕ → List ℕ) (c : FsCall) (s' : Ramfs) : Prop :=
  s'.core = s.core ∨ ∃ e kids', Edits s c e ∧ e.Effect s kids s' kids'

theorem ramfsAllocInode_eq (s : Ramfs) (mode : ℕ) (name : Str) :
    ramfsAllocInode s mode name = if s.kmalloc.headD 0 = 0 then (0, s.kzalloc.2) else
      (s.kmalloc.headD 0, s.kzalloc.2.addInode (s.kmalloc.headD 0)
        { ino := s.nextIno, mode := mode, name := name.take ramfsMaxName }) := rfl

theorem ramfsMake_effect {typ : ℕ} {fop : FileOps} {r : ℤ} {ino : Option Inode} (hs : s.Wf kids)
    (hm : FreshMem s) (hd : s.live dir.iPrivate = true)
    (h : ramfsMake typ fop s dir name mode = some (r, ino, s')) :
    s'.core = s.core ∨ (s.kmalloc.headD 0 ≠ 0 ∧
      ∃ kids', Made s kids dir.iPrivate (s.kmalloc.headD 0) (typ ||| mode) name s' kids') := by
  unfold ramfsMake at h
  rw [ramfsAllocInode_eq] at h
  by_cases h0 : s.kmalloc.headD 0 = 0
  · rw [if_pos h0] at h
    dsimp only at h
    rw [if_pos rfl] at h
    obtain ⟨-, h⟩ := pair_inj h
    obtain ⟨-, rfl⟩ := Prod.mk.inj h
    exact .inl rfl
  · rw [if_neg h0] at h
    dsimp only at h
    rw [if_neg h0, Option.bind_eq_bind, Option.bind_eq_some_iff] at h
    have hs₁ : s.kzalloc.2.Wf kids := hs.of_core rfl
    obtain ⟨r', s₂, heq, kids', hmade⟩ := made_of_addChild (typ ||| mode) name
      { ino := s.nextIno, mode := typ ||| mode, name := name.take ramfsMaxName }
      hs₁ h0 (hm.head h0) hd rfl rfl rfl rfl rfl
    obtain ⟨⟨r'', s₃⟩, heq', h⟩ := h
    rw [heq] at heq'
    obtain ⟨rfl, rfl⟩ := pair_inj heq'
    refine .inr ⟨h0, kids', ?_⟩
    dsimp only at h
    split at h
    · obtain ⟨-, h⟩ := pair_inj h
      obtain ⟨-, rfl⟩ := Prod.mk.inj h
      exact hmade.of_core rfl rfl
    · rw [Option.bind_eq_bind, Option.bind_eq_some_iff] at h
      obtain ⟨f, -, h⟩ := h
      obtain ⟨-, h⟩ := pair_inj h
      obtain ⟨-, rfl⟩ := Prod.mk.inj h
      exact hmade.of_core rfl rfl

theorem vfsMake_effect {typ : ℕ} {fop : FileOps} {r : ℤ} (hs : s.Wf kids) (hm : FreshMem s)
    (h : vfsMake (ramfsMake typ fop) s path mode = some (r, s')) :
    s'.core = s.core ∨ ∃ p name s₁ kids', vfsLookupParent s path = some (some (p, name), s₁) ∧
      s₁.kzalloc.2.kmalloc.headD 0 ≠ 0 ∧
      Made s kids p.iPrivate (s₁.kzalloc.2.kmalloc.headD 0) (typ ||| mode) name s' kids' := by
  unfold vfsMake at h
  rw [Option.bind_eq_bind, Option.bind_eq_some_iff] at h
  obtain ⟨⟨parent, s₁⟩, hlook, h⟩ := h
  obtain ⟨hr, hlive⟩ := vfsLookupParent_effect hs hlook
  cases parent with
  | none =>
    obtain ⟨rfl, rfl⟩ := pair_inj h
    exact .inl hr.core
  | some found =>
    obtain ⟨p, name⟩ := found
    dsimp only at h
    split at h
    · exact absurd h (by simp)
    · rw [Option.bind_eq_bind, Option.bind_eq_some_iff] at h
      obtain ⟨⟨r', ino, s₂⟩, hmake, h⟩ := h
      obtain ⟨rfl, rfl⟩ := pair_inj h
      have hr₂ : Reads s s₁.kzalloc.2 := hr.trans (reads_kzalloc s₁)
      have hd : s₁.kzalloc.2.live p.iPrivate = true := by
        rw [live_of_core hr₂.core]
        exact hlive p name rfl
      rcases ramfsMake_effect (hs.of_core hr₂.core) (hm.reads hr₂) hd hmake with
        hcore | ⟨h0, kids', hmade⟩
      · exact .inl (hcore.trans hr₂.core)
      · exact .inr ⟨p, name, s₁, kids', hlook, h0, hmade.of_core hr₂.core.symm rfl⟩

theorem openFile_core {inode : Inode} {flags : ℕ} {f : Option File}
    (h : openFile s inode flags mode = (f, s')) : s'.core = s.core := by
  unfold openFile at h
  dsimp only at h
  split at h
  · rw [← (Prod.mk.inj h).2]
    rfl
  · rw [← (Prod.mk.inj h).2]
    rfl

theorem vfsOpen_outcome {flags : ℕ} {f : Option File} (hs : s.Wf kids) (hm : FreshMem s)
    (h : vfsOpen s path flags mode = some (f, s')) :
    Outcome s kids (.vfs (.open path flags mode)) s' := by
  unfold vfsOpen at h
  by_cases hroot : path = [slash]
  · rw [if_pos hroot] at h
    split at h
    · exact absurd h (by simp)
    · next hopen =>
      obtain ⟨-, rfl⟩ := pair_inj h
      exact .inl (openFile_core hopen)
  rw [if_neg hroot, Option.bind_eq_bind, Option.bind_eq_some_iff] at h
  obtain ⟨⟨parent, s₁⟩, hlook, h⟩ := h
  obtain ⟨hr, hlive⟩ := openParent_effect hs hlook
  cases parent with
  | none =>
    obtain ⟨-, rfl⟩ := pair_inj h
    exact .inl hr.core
  | some found =>
    obtain ⟨p, name⟩ := found
    dsimp only at h
    split at h
    · exact absurd h (by simp)
    rw [Option.bind_eq_bind, Option.bind_eq_some_iff] at h
    obtain ⟨⟨dInode, s₂⟩, hfind, h⟩ := h
    have hr₁ : Reads s s₁.kzalloc.2 := hr.trans (reads_kzalloc s₁)
    have hd : s₁.kzalloc.2.live p.iPrivate = true := by
      rw [live_of_core hr₁.core]
      exact hlive p name rfl
    have hr₂ : Reads s s₂ := hr₁.trans (ramfsLookup_effect (hs.of_core hr₁.core) hd hfind).1
    cases dInode with
    | some inode =>
      exact .inl ((openFile_core (Option.some.inj h)).trans hr₂.core)
    | none =>
      dsimp only at h
      split at h
      · obtain ⟨-, rfl⟩ := pair_inj h
        exact .inl hr₂.core
      · next hflag =>
        rw [Option.bind_eq_bind, Option.bind_eq_some_iff] at h
        obtain ⟨⟨ret, ino, s₃⟩, hmake, h⟩ := h
        have hd₂ : s₂.live p.iPrivate = true := by
          rw [live_of_core hr₂.core]
          exact hlive p name rfl
        have hcore : s'.core = s₃.core := by
          dsimp only at h
          split at h
          · obtain ⟨-, rfl⟩ := pair_inj h
            rfl
          · rw [Option.bind_eq_bind, Option.bind_eq_some_iff] at h
            obtain ⟨inode, -, h⟩ := h
            exact openFile_core (Option.some.inj h)
        rcases ramfsMake_effect (hs.of_core hr₂.core) (hm.reads hr₂) hd₂ hmake with
          hcore' | ⟨h0, kids', hmade⟩
        · exact .inl (hcore.trans (hcore'.trans hr₂.core))
        · exact .inr ⟨_, kids', .open hroot hlook hflag hfind h0, hmade.of_core hr₂.core.symm hcore⟩

theorem vfsRename_outcome {old new : Str} {r : ℤ} (hs : s.Wf kids)
    (h : vfsRename s old new = some (r, s')) : Outcome s kids (.vfs (.rename old new)) s' := by
  unfold vfsRename at h
  rw [Option.bind_eq_bind, Option.bind_eq_some_iff] at h
  obtain ⟨⟨oldParent, s₁⟩, hold, h⟩ := h
  obtain ⟨hr₁, hlive₁⟩ := vfsLookupParent_effect hs hold
  cases oldParent with
  | none =>
    obtain ⟨-, rfl⟩ := pair_inj h
    exact .inl hr₁.core
  | some found =>
  obtain ⟨o, oldName⟩ := found
  dsimp only at h
  rw [Option.bind_eq_bind, Option.bind_eq_some_iff] at h
  obtain ⟨⟨newParent, s₂⟩, hnew, h⟩ := h
  obtain ⟨hr₂, hlive₂⟩ := vfsLookupParent_effect (hs.of_core hr₁.core) hnew
  replace hr₂ := hr₁.trans hr₂
  cases newParent with
  | none =>
    obtain ⟨-, rfl⟩ := pair_inj h
    exact .inl hr₂.core
  | some found =>
  obtain ⟨n, newName⟩ := found
  dsimp only at h
  split at h
  · exact absurd h (by simp)
  rw [Option.bind_eq_some_iff] at h
  obtain ⟨⟨dInode, s₃⟩, hfind, h⟩ := h
  have hr₂' : Reads s s₂.kzalloc.2 := hr₂.trans (reads_kzalloc s₂)
  have ho : s₂.kzalloc.2.live o.iPrivate = true := by
    rw [live_of_core hr₂'.core]
    exact hlive₁ o oldName rfl
  obtain ⟨hr₃, hfound⟩ := ramfsLookup_effect (hs.of_core hr₂'.core) ho hfind
  replace hr₃ := hr₂'.trans hr₃
  cases dInode with
  | none =>
    obtain ⟨-, rfl⟩ := pair_inj h
    exact .inl hr₃.core
  | some t =>
  dsimp only at h
  split at h
  · exact absurd h (by simp)
  have hr₄ : Reads s s₃.kzalloc.2 := hr₃.trans (reads_kzalloc s₃)
  have hn : s₃.kzalloc.2.live n.iPrivate = true := by
    rw [live_of_core hr₄.core, ← live_of_core hr₁.core]
    exact hlive₂ n newName rfl
  obtain ⟨r', s₅, heq, hcases⟩ :=
    ramfsRename_spec newName (hs.of_core hr₄.core) (hfound t rfl).2.1 hn
  rw [heq] at h
  obtain ⟨-, rfl⟩ := pair_inj h
  rcases hcases with rfl | ⟨hfree, kids', hmoved⟩
  · exact .inl hr₄.core
  · rw [ramfsLookupChild_of_core hr₄.core] at hfree
    exact .inr ⟨_, kids', .rename hold hnew hfind hfree, hmoved.of_core hr₄.core.symm⟩

theorem ramfsUnlink_effect {r : ℤ} (hs : s.Wf kids) (hd : s.live dir.iPrivate = true)
    (h : ramfsUnlink s dir name = some (r, s')) :
    s' = s ∨ ∃ t kids', ramfsLookupChild s dir.iPrivate name = some t ∧ t ≠ 0 ∧
      s.isDir t = false ∧ Removed s kids dir.iPrivate t s' kids' := by
  obtain ⟨t, hlook, hcases⟩ := ramfsLookupChild_cases hs hd name
  unfold ramfsUnlink at h
  simp only [hlook, Option.bind_eq_bind, Option.bind_some] at h
  rcases hcases with ⟨rfl, -⟩ | ⟨ht0, -, ht, -⟩
  · obtain ⟨-, rfl⟩ := pair_inj h
    exact .inl rfl
  obtain ⟨i, hi, -, -, hdir⟩ := inodes_eq (hs.kid_live _ t ht)
  rw [if_neg ht0, hi, Option.bind_some, ← hdir] at h
  cases hisdir : s.isDir t with
  | true =>
    rw [hisdir, if_pos rfl] at h
    obtain ⟨-, rfl⟩ := pair_inj h
    exact .inl rfl
  | false =>
    obtain ⟨s₁, heq, kids', hrem⟩ := removeChild_free hs ht
    rw [hisdir, if_neg (by decide), heq, Option.bind_some] at h
    obtain ⟨-, rfl⟩ := pair_inj h
    exact .inr ⟨t, kids', hlook, ht0, hisdir, hrem⟩

theorem ramfsRmdir_effect {r : ℤ} (hs : s.Wf kids) (hd : s.live dir.iPrivate = true)
    (h : ramfsRmdir s dir name = some (r, s')) :
    s' = s ∨ ∃ t kids', ramfsLookupChild s dir.iPrivate name = some t ∧ t ≠ 0 ∧
      s.children t = 0 ∧ Removed s kids dir.iPrivate t s' kids' := by
  obtain ⟨t, hlook, hcases⟩ := ramfsLookupChild_cases hs hd name
  unfold ramfsRmdir at h
  simp only [hlook, Option.bind_eq_bind, Option.bind_some] at h
  rcases hcases with ⟨rfl, -⟩ | ⟨ht0, -, ht, -⟩
  · obtain ⟨-, rfl⟩ := pair_inj h
    exact .inl rfl
  obtain ⟨i, hi, -, hch, -⟩ := inodes_eq (hs.kid_live _ t ht)
  rw [if_neg ht0, hi, Option.bind_some, ← hch] at h
  split at h
  · obtain ⟨-, rfl⟩ := pair_inj h
    exact .inl rfl
  by_cases hempty : s.children t = 0
  · obtain ⟨s₁, heq, kids', hrem⟩ := removeChild_free hs ht
    rw [if_neg (by simpa using hempty), heq, Option.bind_some] at h
    obtain ⟨-, rfl⟩ := pair_inj h
    exact .inr ⟨t, kids', hlook, ht0, hempty, hrem⟩
  · rw [if_pos hempty] at h
    obtain ⟨-, rfl⟩ := pair_inj h
    exact .inl rfl

theorem vfsRemove_effect {refuse : ℕ → Bool} {err r : ℤ}
    {remove : Ramfs → Inode → Str → Option (ℤ × Ramfs)} (hs : s.Wf kids)
    (h : vfsRemove refuse err remove s path = some (r, s')) :
    s'.core = s.core ∨ ∃ p name inode s₁ s₂, vfsLookupParent s path = some (some (p, name), s₁) ∧
      s.live p.iPrivate = true ∧ Reads s s₂ ∧ s₁.kzalloc.1 ≠ 0 ∧
      ramfsLookup s₁.kzalloc.2 p name = some (some inode, s₂) ∧ refuse inode.iMode = false ∧
      remove s₂ p name = some (r, s') := by
  unfold vfsRemove at h
  rw [Option.bind_eq_bind, Option.bind_eq_some_iff] at h
  obtain ⟨⟨parent, s₁⟩, hlook, h⟩ := h
  obtain ⟨hr₁, hlive⟩ := vfsLookupParent_effect hs hlook
  cases parent with
  | none =>
    obtain ⟨-, rfl⟩ := pair_inj h
    exact .inl hr₁.core
  | some found =>
  obtain ⟨p, name⟩ := found
  have hr₂ : Reads s s₁.kzalloc.2 := hr₁.trans (reads_kzalloc s₁)
  have hp := hlive p name rfl
  dsimp only at h
  split at h
  · obtain ⟨-, rfl⟩ := pair_inj h
    exact .inl hr₂.core
  next h0 =>
  rw [Option.bind_eq_bind, Option.bind_eq_some_iff] at h
  obtain ⟨⟨dInode, s₃⟩, hfind, h⟩ := h
  have hp₂ : s₁.kzalloc.2.live p.iPrivate = true := by
    rw [live_of_core hr₂.core]
    exact hp
  have hr₃ : Reads s s₃ := hr₂.trans (ramfsLookup_effect (hs.of_core hr₂.core) hp₂ hfind).1
  cases dInode with
  | none =>
    obtain ⟨-, rfl⟩ := pair_inj h
    exact .inl hr₃.core
  | some inode =>
  dsimp only at h
  split at h
  · obtain ⟨-, rfl⟩ := pair_inj h
    exact .inl hr₃.core
  · next hmode =>
    exact .inr ⟨p, name, inode, s₁, s₃, hlook, hp, hr₃, h0, hfind, Bool.eq_false_of_not_eq_true hmode, h⟩

theorem vfsUnlink_outcome {r : ℤ} (hs : s.Wf kids) (h : vfsUnlink s path = some (r, s')) :
    Outcome s kids (.vfs (.unlink path)) s' := by
  rcases vfsRemove_effect hs h with hcore | ⟨p, name, inode, s₁, s₂, hlook, hp, hr, -, -, -, h⟩
  · exact .inl hcore
  have hp₂ : s₂.live p.iPrivate = true := by
    rw [live_of_core hr.core]
    exact hp
  rcases ramfsUnlink_effect (hs.of_core hr.core) hp₂ h with rfl | ⟨t, kids', hfound, ht0, hdir, hrem⟩
  · exact .inl hr.core
  · rw [ramfsLookupChild_of_core hr.core] at hfound
    rw [isDir_of_core hr.core] at hdir
    exact .inr ⟨_, kids', .unlink hlook hfound ht0 hdir, hrem.of_core hr.core.symm, .inl hdir⟩

theorem vfsRmdir_outcome {r : ℤ} (hs : s.Wf kids) (h : vfsRmdir s path = some (r, s')) :
    Outcome s kids (.vfs (.rmdir path)) s' := by
  rcases vfsRemove_effect hs h with hcore | ⟨p, name, inode, s₁, s₂, hlook, hp, hr, -, -, -, h⟩
  · exact .inl hcore
  have hp₂ : s₂.live p.iPrivate = true := by
    rw [live_of_core hr.core]
    exact hp
  rcases ramfsRmdir_effect (hs.of_core hr.core) hp₂ h with rfl | ⟨t, kids', hfound, ht0, hch, hrem⟩
  · exact .inl hr.core
  · rw [ramfsLookupChild_of_core hr.core] at hfound
    rw [children_of_core hr.core] at hch
    have hempty : kids t = [] := by
      have hchain := hs.chain t
      rw [hch] at hchain
      exact hchain.unique (show Chain 0 s.sibling 0 [] from rfl)
    exact .inr ⟨_, kids', .rmdir hlook hfound ht0 hch, hrem.of_core hr.core.symm, .inr hempty⟩

theorem ramfsGetParentDir_live {d : ℕ} (hs : s.Wf kids)
    (h : ramfsGetParentDir s path = some (d, name)) (hd : d ≠ 0) : s.live d = true := by
  have hroot := live_of_isDir hs.root_dir
  unfold ramfsGetParentDir at h
  dsimp only at h
  split at h
  · rw [← (pair_inj h).1]
    exact hroot
  · next len _ =>
    rw [Option.bind_eq_bind, Option.bind_eq_some_iff] at h
    obtain ⟨c, hlook, h⟩ := h
    obtain ⟨c', hlook', hcases⟩ := ramfsLookupChild_cases hs hroot
      (((skipSlash path).take len).take ramfsMaxName)
    rw [hlook] at hlook'
    obtain rfl := Option.some.inj hlook'
    obtain ⟨rfl, -⟩ := pair_inj h
    rcases hcases with ⟨h0, -⟩ | ⟨-, -, hmem, -⟩
    · exact absurd h0 hd
    · exact hs.kid_live _ _ hmem

def DataOnly (f : RamfsInode → RamfsInode) : Prop :=
  ∀ i, (f i).ino = i.ino ∧ (f i).mode = i.mode ∧ (f i).name = i.name ∧
    (f i).children = i.children ∧ (f i).parent = i.parent

theorem boot_made {a d : ℕ} (s₁ : Ramfs) (f : RamfsInode → RamfsInode) (mode : ℕ) (name : Str)
    (hs : s.Wf kids) (hcore : s₁.core = s.core) (ha0 : a ≠ 0) (ha : s.live a = false)
    (hd : s.live d = true) (hf : DataOnly f) :
    ∃ r s', ramfsAddChild (s₁.addInode a
        (f { ino := s.nextIno, mode := mode, name := name.take ramfsMaxName })) d a = some (r, s') ∧
      ∃ kids', Made s kids d a mode name s' kids' := by
  obtain ⟨hino, hmode, hname, hch, hpar⟩ :=
    hf { ino := s.nextIno, mode := mode, name := name.take ramfsMaxName }
  have ha₁ : s₁.live a = false := by rw [live_of_core hcore]; exact ha
  have hd₁ : s₁.live d = true := by rw [live_of_core hcore]; exact hd
  have hino₁ := hino.trans (nextIno_of_core hcore).symm
  obtain ⟨r, s', heq, kids', hmade⟩ := made_of_addChild mode name _ (hs.of_core hcore) ha0 ha₁ hd₁
    hino₁ hmode hname hch hpar
  exact ⟨r, s', heq, kids', hmade.of_core hcore.symm rfl⟩

theorem live_addInode (s : Ramfs) (a : ℕ) (i : RamfsInode) : (s.addInode a i).live a = true := by
  rw [live, field_addInode, Function.update_self]

theorem fillContent_eq {a : ℕ} {i : RamfsInode} {content : Option Str}
    (h : fillContent (s.addInode a i) a content = some s') :
    ∃ (s₁ : Ramfs) (f : RamfsInode → RamfsInode),
      s₁.core = s.core ∧ s' = s₁.addInode a (f i) ∧ DataOnly f := by
  cases content with
  | none =>
    obtain rfl := Option.some.inj h
    exact ⟨s, id, rfl, rfl, fun _ => ⟨rfl, rfl, rfl, rfl, rfl⟩⟩
  | some content =>
    unfold fillContent at h
    dsimp only at h
    split at h
    · obtain rfl := Option.some.inj h
      exact ⟨s.kzalloc.2, id, rfl, rfl, fun _ => ⟨rfl, rfl, rfl, rfl, rfl⟩⟩
    · have hlive : (s.addInode a i).kzalloc.2.live a = true := live_addInode s.kzalloc.2 a i
      rw [modify_eq hlive] at h
      obtain rfl := Option.some.inj h
      refine ⟨s.kzalloc.2, fun j => { j with
        data := some (bytesOf content)
        size := content.length
        dataCapacity := content.length }, rfl, ?_, fun _ => ⟨rfl, rfl, rfl, rfl, rfl⟩⟩
      exact addInode_upd s.kzalloc.2 a i _

theorem ramfsCreateFile_outcome {content : Option Str} {r : ℤ} (hs : s.Wf kids) (hm : FreshMem s)
    (h : ramfsCreateFile s path mode content = some (r, s')) :
    Outcome s kids (.createFile path mode content) s' := by
  unfold ramfsCreateFile at h
  split at h
  · obtain ⟨-, rfl⟩ := pair_inj h
    exact .inl rfl
  rw [Option.bind_eq_bind, Option.bind_eq_some_iff] at h
  obtain ⟨⟨parent, filename⟩, hparent, h⟩ := h
  obtain ⟨d, hd⟩ : ∃ d, d = if parent = 0 then (s.root, (skipSlash path).take ramfsMaxName)
      else (parent, filename) := ⟨_, rfl⟩
  dsimp only at h
  rw [← hd, ramfsAllocInode_eq] at h
  by_cases h0 : s.kmalloc.headD 0 = 0
  · rw [if_pos h0] at h
    dsimp only at h
    rw [if_pos rfl] at h
    obtain ⟨-, rfl⟩ := pair_inj h
    exact .inl rfl
  have hlive : s.live d.1 = true := by
    rw [hd]
    split
    · exact live_of_isDir hs.root_dir
    · next hp0 => exact ramfsGetParentDir_live hs hparent hp0
  rw [if_neg h0] at h
  dsimp only at h
  rw [if_neg h0, Option.bind_eq_bind, Option.bind_eq_some_iff] at h
  obtain ⟨s₁, hdata, h⟩ := h
  rw [Option.bind_eq_bind, Option.bind_eq_some_iff] at h
  obtain ⟨⟨r', s₂⟩, hadd, h⟩ := h
  obtain ⟨-, rfl⟩ := pair_inj h
  obtain ⟨s₃, f, hcore, rfl, hf⟩ := fillContent_eq hdata
  obtain ⟨r'', s₄, hadd', kids', hmade⟩ :=
    boot_made s₃ f (sIfreg ||| mode) d.2 hs hcore h0 (hm.head h0) hlive hf
  rw [hadd'] at hadd
  obtain ⟨rfl, rfl⟩ := pair_inj hadd
  refine .inr ⟨.make d.1 (s.kmalloc.headD 0) (sIfreg ||| mode) d.2, kids', ?_, hmade⟩
  rw [hd]
  split
  · next hp0 =>
    subst hp0
    exact .createFileRoot hparent h0
  · next hp0 => exact .createFile hparent hp0 h0

theorem ramfsCreateFileBytes_outcome {data : Option Bytes} {size : ℕ} {r : ℤ} (hs : s.Wf kids)
    (hm : FreshMem s) (h : ramfsCreateFileBytes s path mode data size = some (r, s')) :
    Outcome s kids (.createFileBytes path mode data size) s' := by
  unfold ramfsCreateFileBytes at h
  split at h
  · obtain ⟨-, rfl⟩ := pair_inj h
    exact .inl rfl
  rw [Option.bind_eq_bind, Option.bind_eq_some_iff] at h
  obtain ⟨⟨d, name⟩, hparent, h⟩ := h
  dsimp only at h
  by_cases hd0 : d = 0
  · rw [if_pos hd0] at h
    obtain ⟨-, rfl⟩ := pair_inj h
    exact .inl rfl
  rw [if_neg hd0, ramfsAllocInode_eq] at h
  by_cases h0 : s.kmalloc.headD 0 = 0
  · rw [if_pos h0] at h
    dsimp only at h
    rw [if_pos rfl] at h
    obtain ⟨-, rfl⟩ := pair_inj h
    exact .inl rfl
  have hlive := ramfsGetParentDir_live hs hparent hd0
  rw [if_neg h0] at h
  dsimp only at h
  rw [if_neg h0] at h
  by_cases hdata : data.isSome ∧ 0 < size
  · rw [if_pos hdata] at h
    by_cases hbuf : s.kzalloc.2.kmalloc.headD 0 = 0
    · -- the inode made above is neither entered nor freed
      have hbuf' : (s.kzalloc.2.addInode (s.kmalloc.headD 0)
          { ino := s.nextIno, mode := sIfreg ||| mode,
            name := name.take ramfsMaxName }).kzalloc.1 = 0 := hbuf
      rw [if_pos hbuf'] at h
      obtain ⟨-, rfl⟩ := pair_inj h
      refine .inr ⟨_, kids, .createFileLeak hparent hd0 h0 hdata hbuf, ?_⟩
      have hnull : s.isDir 0 = false := by
        by_contra hdir
        have := hs.null
        rw [live_of_isDir (by simpa using hdir)] at this
        exact absurd this (by decide)
      have hmade := made_detached (sIfreg ||| mode) name
        { ino := s.nextIno, mode := sIfreg ||| mode, name := name.take ramfsMaxName } hs h0
        (hm.head h0) hnull rfl rfl rfl rfl rfl
      exact hmade.of_core rfl rfl
    · have hbuf' : ¬ (s.kzalloc.2.addInode (s.kmalloc.headD 0)
          { ino := s.nextIno, mode := sIfreg ||| mode,
            name := name.take ramfsMaxName }).kzalloc.1 = 0 := hbuf
      have hnew : (s.kzalloc.2.addInode (s.kmalloc.headD 0)
          { ino := s.nextIno, mode := sIfreg ||| mode,
            name := name.take ramfsMaxName }).kzalloc.2.live (s.kmalloc.headD 0) = true :=
        live_addInode s.kzalloc.2 _ _
      rw [if_neg hbuf', modify_eq hnew, Option.bind_eq_bind, Option.bind_some, Option.bind_eq_bind,
        Option.bind_eq_some_iff] at h
      obtain ⟨⟨r', s₂⟩, hadd, h⟩ := h
      obtain ⟨-, rfl⟩ := pair_inj h
      obtain ⟨r'', s₃, hadd', kids', hmade⟩ := boot_made s.kzalloc.2.kzalloc.2
        (fun f => { f with data := data, size := size, dataCapacity := size }) (sIfreg ||| mode) name
        hs rfl h0 (hm.head h0) hlive fun _ => ⟨rfl, rfl, rfl, rfl, rfl⟩
      have hupd := congrArg (ramfsAddChild · d (s.kmalloc.headD 0))
        (addInode_upd s.kzalloc.2.kzalloc.2 (s.kmalloc.headD 0)
          { ino := s.nextIno, mode := sIfreg ||| mode, name := name.take ramfsMaxName }
          fun f => { f with data := data, size := size, dataCapacity := size })
      have heq := (hupd.trans hadd').symm.trans hadd
      obtain ⟨-, rfl⟩ := pair_inj heq
      exact .inr ⟨_, kids', .createFileBytes hparent hd0 h0 fun _ => hbuf, hmade⟩
  · rw [if_neg hdata, Option.bind_eq_bind, Option.bind_eq_some_iff] at h
    obtain ⟨⟨r', s₂⟩, hadd, h⟩ := h
    obtain ⟨-, rfl⟩ := pair_inj h
    obtain ⟨r'', s₃, hadd', kids', hmade⟩ := boot_made s.kzalloc.2 id (sIfreg ||| mode) name hs
      rfl h0 (hm.head h0) hlive fun _ => ⟨rfl, rfl, rfl, rfl, rfl⟩
    have heq := hadd'.symm.trans hadd
    obtain ⟨-, rfl⟩ := pair_inj heq
    exact .inr ⟨_, kids', .createFileBytes hparent hd0 h0 fun h => absurd h hdata, hmade⟩

theorem ramfsCreateDir_outcome {r : ℤ} (hs : s.Wf kids) (hm : FreshMem s)
    (h : ramfsCreateDir s path mode = some (r, s')) :
    Outcome s kids (.createDir path mode) s' := by
  unfold ramfsCreateDir at h
  split at h
  · obtain ⟨-, rfl⟩ := pair_inj h
    exact .inl rfl
  rw [ramfsAllocInode_eq] at h
  by_cases h0 : s.kmalloc.headD 0 = 0
  · rw [if_pos h0] at h
    dsimp only at h
    rw [if_pos rfl] at h
    obtain ⟨-, rfl⟩ := pair_inj h
    exact .inl rfl
  rw [if_neg h0] at h
  dsimp only at h
  rw [if_neg h0, Option.bind_eq_bind, Option.bind_eq_some_iff] at h
  obtain ⟨⟨r', s₂⟩, hadd, h⟩ := h
  obtain ⟨-, rfl⟩ := pair_inj h
  obtain ⟨r'', s₃, hadd', kids', hmade⟩ := boot_made s.kzalloc.2 id (sIfdir ||| mode) path hs
    rfl h0 (hm.head h0) (live_of_isDir hs.root_dir) fun _ => ⟨rfl, rfl, rfl, rfl, rfl⟩
  have heq := hadd'.symm.trans hadd
  obtain ⟨-, rfl⟩ := pair_inj heq
  exact .inr ⟨_, kids', .createDir h0, hmade⟩

theorem run_outcome {c : FsCall} (hs : s.Wf kids) (hm : FreshMem s) (h : c.run s = some s') :
    Outcome s kids c s' := by
  cases c with
  | vfs c =>
    cases c with
    | «open» path flags mode =>
      obtain ⟨⟨f, s₁⟩, heq, rfl⟩ := Option.map_eq_some_iff.mp h
      exact vfsOpen_outcome hs hm heq
    | create path mode =>
      obtain ⟨⟨r, s₁⟩, heq, rfl⟩ := Option.map_eq_some_iff.mp h
      rcases vfsMake_effect hs hm heq with hcore | ⟨p, name, s₂, kids', hlook, h0, hmade⟩
      · exact .inl hcore
      · exact .inr ⟨_, kids', .create hlook h0, hmade⟩
    | mkdir path mode =>
      obtain ⟨⟨r, s₁⟩, heq, rfl⟩ := Option.map_eq_some_iff.mp h
      rcases vfsMake_effect hs hm heq with hcore | ⟨p, name, s₂, kids', hlook, h0, hmade⟩
      · exact .inl hcore
      · exact .inr ⟨_, kids', .mkdir hlook h0, hmade⟩
    | rename old new =>
      obtain ⟨⟨r, s₁⟩, heq, rfl⟩ := Option.map_eq_some_iff.mp h
      exact vfsRename_outcome hs heq
    | unlink path =>
      obtain ⟨⟨r, s₁⟩, heq, rfl⟩ := Option.map_eq_some_iff.mp h
      exact vfsUnlink_outcome hs heq
    | rmdir path =>
      obtain ⟨⟨r, s₁⟩, heq, rfl⟩ := Option.map_eq_some_iff.mp h
      exact vfsRmdir_outcome hs heq
  | createFile path mode content =>
    obtain ⟨⟨r, s₁⟩, heq, rfl⟩ := Option.map_eq_some_iff.mp h
    exact ramfsCreateFile_outcome hs hm heq
  | createFileBytes path mode data size =>
    obtain ⟨⟨r, s₁⟩, heq, rfl⟩ := Option.map_eq_some_iff.mp h
    exact ramfsCreateFileBytes_outcome hs hm heq
  | createDir path mode =>
    obtain ⟨⟨r, s₁⟩, heq, rfl⟩ := Option.map_eq_some_iff.mp h
    exact ramfsCreateDir_outcome hs hm heq

end GcAos.Fs
