import GcAos.Fs.VfsFile

/-! Runs with open files: when they refer to inodes that are still there, and when they know the
size of the file. -/

namespace GcAos.Fs
open Lib Ramfs

variable {s s' : Ramfs} {v v' : Vfs} {kids : ℕ → List ℕ}

structure SameFile (f f' : File) : Prop where
  fDentry : f'.fDentry = f.fDentry
  fOp : f'.fOp = f.fOp
  fCount : f'.fCount = f.fCount
  privateData : f'.privateData = f.privateData

theorem SameFile.refl (f : File) : SameFile f f := ⟨rfl, rfl, rfl, rfl⟩

theorem SameFile.pos (f : File) (pos : ℕ) : SameFile f { f with fPos := pos } := ⟨rfl, rfl, rfl, rfl⟩

theorem ramfsRead_file {f f' : File} {count : ℕ} {r : ℤ} {bytes : List UInt8}
    (h : ramfsRead s f count = some (r, bytes, f')) : SameFile f f' := by
  unfold ramfsRead at h
  split at h
  · cases h
    exact .refl _
  obtain ⟨inode, -, h⟩ := Option.bind_eq_some_iff.mp h
  split at h
  · cases h
    exact .refl _
  split at h
  · cases h
    exact .refl _
  · cases h
    exact .pos f _

theorem vfsRead_file {file : Option File} {f' : File} {buf : Bool} {count : ℕ} {r : ℤ}
    {bytes : List UInt8} (h : vfsRead s file buf count = some (r, bytes, some f')) :
    ∃ f, file = some f ∧ SameFile f f' := by
  unfold vfsRead at h
  cases file with
  | none => exact absurd h (by simp)
  | some f =>
  dsimp only at h
  split at h
  · cases h
    exact ⟨_, rfl, .refl _⟩
  split at h
  · cases h
    exact ⟨_, rfl, .refl _⟩
  · obtain ⟨⟨r', bytes', f₁⟩, hread, h⟩ := Option.bind_eq_some_iff.mp h
    cases h
    exact ⟨f, rfl, ramfsRead_file hread⟩

theorem vfsLseek_file {file : Option File} {f' : File} {offset r : ℤ} {whence : Whence}
    (h : vfsLseek file offset whence = some (r, some f')) : ∃ f, file = some f ∧ SameFile f f' := by
  cases file with
  | none => exact absurd h (by simp [vfsLseek])
  | some f =>
  refine ⟨f, rfl, ?_⟩
  have hseek : ∀ newPos : ℤ, (if 2 ^ 63 ≤ newPos then none
      else if newPos < 0 then some (-eINVAL, some f)
      else some (newPos, some { f with fPos := newPos.toNat })) = some (r, some f') →
      SameFile f f' := by
    intro newPos h
    split at h
    · exact absurd h (by simp)
    split at h
    · cases h
      exact .refl _
    · cases h
      exact .pos f _
  unfold vfsLseek at h
  cases whence with
  | seekSet => exact hseek _ h
  | seekCur => exact hseek _ h
  | seekEnd => exact hseek _ h
  | unknown =>
    cases h
    exact .refl _

theorem vfsClose_gone {file : Option File} (h : ∀ f, file = some f → f.fCount = 1) :
    (vfsClose file).2 = none := by
  cases file with
  | none => rfl
  | some f =>
    have hcount : f.fCount - 1 ≤ 0 := by rw [h f rfl]; decide
    unfold vfsClose ramfsRelease
    dsimp only
    rw [if_pos hcount]

structure Wrote (s : Ramfs) (f : File) (buf : List UInt8) (s' : Ramfs) : Prop where
  op : f.fOp = .ramfsFileOps
  grows : ∃ inode, s.inodes f.privateData = some inode ∧
    ¬ NoRoom s inode ((f.fPos + buf.length) % 2 ^ 64)
  core : ∃ data cap, s'.core = (s.setData f.privateData data cap
    (max (s.size f.privateData) (f.fPos + buf.length))).core

theorem vfsWrite_cases {file file' : Option File} {buf : Option (List UInt8)} {junk : Bytes} {r : ℤ}
    (h : vfsWrite s file buf junk = some (r, file', s')) :
    (∀ f', file' = some f' → ∃ f, file = some f ∧ SameFile f f') ∧
      ((r < 0 ∧ s'.core = s.core) ∨
        ∃ f bytes, file = some f ∧ buf = some bytes ∧ 0 ≤ r ∧ Wrote s f bytes s') := by
  unfold vfsWrite at h
  cases file with
  | none =>
    cases h
    exact ⟨fun _ h => absurd h (by simp), .inl ⟨by decide, rfl⟩⟩
  | some f =>
  have hsame : ∀ f', some f = some f' → ∃ g, some f = some g ∧ SameFile g f' := by
    intro f' hf'
    obtain rfl := Option.some.inj hf'
    exact ⟨_, rfl, .refl _⟩
  cases buf with
  | none =>
    cases h
    exact ⟨hsame, .inl ⟨by decide, rfl⟩⟩
  | some bytes =>
  dsimp only at h
  split at h
  · cases h
    exact ⟨hsame, .inl ⟨by decide, rfl⟩⟩
  · next hop =>
    obtain ⟨⟨r', f₁, s₁⟩, hwrite, h⟩ := Option.bind_eq_some_iff.mp h
    cases h
    rcases ramfsWrite_cases hwrite with
      ⟨hr, rfl, hcore⟩ | ⟨inode, data, cap, hi, hroom, rfl, rfl, hcore⟩
    · exact ⟨hsame, .inl ⟨hr, hcore⟩⟩
    · refine ⟨?_, .inr ⟨f, bytes, rfl, rfl, Int.natCast_nonneg _, hop, ⟨inode, hi, hroom⟩, data, cap, hcore⟩⟩
      intro f' hf'
      obtain rfl := Option.some.inj hf'
      exact ⟨f, rfl, .pos f _⟩

def Vfs.completed (v : Vfs) : FileCall → List (ℕ × ℕ)
  | .write h (some buf) junk =>
    match v.files h, vfsWrite v.fs (v.files h) (some buf) junk with
    | some f, some (ret, _) => if 0 ≤ ret then [(f.privateData, f.fPos + buf.length)] else []
    | _, _ => []
  | _ => []

/-- What a call with an open file does: the files stay the same but for those that are closed, and
the ramfs changes by a completed write only. -/
theorem run_onFile {c : FileCall} (hcount : ∀ h f, v.files h = some f → f.fCount = 1)
    (hc : ∀ d k, c ≠ .call d k) (h : v.run c = some v') :
    (∀ k f', v'.files k = some f' → ∃ f, v.files k = some f ∧ SameFile f f') ∧
      ((v'.fs.core = v.fs.core ∧ v.completed c = []) ∨
        ∃ k f bytes junk, c = .write k (some bytes) junk ∧ v.files k = some f ∧
          Wrote v.fs f bytes v'.fs ∧ v.completed c = [(f.privateData, f.fPos + bytes.length)]) := by
  have hset : ∀ (h : ℕ) (file : Option File),
      (∀ f', file = some f' → ∃ f, v.files h = some f ∧ SameFile f f') →
      ∀ k f', Function.update v.files h file k = some f' → ∃ f, v.files k = some f ∧ SameFile f f' := by
    intro h file hfile k f' hk
    by_cases hkh : k = h
    · rw [hkh, Function.update_self] at hk
      rw [hkh]
      exact hfile f' hk
    · rw [Function.update_of_ne hkh] at hk
      exact ⟨f', hk, .refl f'⟩
  cases c with
  | call d k => exact absurd rfl (hc d k)
  | read h buf count =>
    obtain ⟨⟨r, bytes, file⟩, hread, hv⟩ := Option.bind_eq_some_iff.mp h
    cases hv
    refine ⟨hset _ _ ?_, .inl ⟨rfl, rfl⟩⟩
    rintro f' rfl
    exact vfsRead_file hread
  | write h buf junk =>
    obtain ⟨⟨r, file, s'⟩, hwrite, hv⟩ := Option.bind_eq_some_iff.mp h
    cases hv
    obtain ⟨hfile, hcases⟩ := vfsWrite_cases hwrite
    refine ⟨hset _ _ hfile, ?_⟩
    rcases hcases with ⟨hr, hcore⟩ | ⟨f, bytes, hf, rfl, hr, hw⟩
    · refine .inl ⟨hcore, ?_⟩
      cases buf with
      | none => rfl
      | some bytes =>
        rw [Vfs.completed, hwrite]
        split
        · next hret =>
          cases hret
          rw [if_neg (by simpa using hr)]
        · rfl
    · refine .inr ⟨_, f, bytes, junk, rfl, hf, hw, ?_⟩
      rw [Vfs.completed, hwrite, hf]
      exact if_pos hr
  | lseek h offset whence =>
    obtain ⟨⟨r, file⟩, hseek, hv⟩ := Option.bind_eq_some_iff.mp h
    cases hv
    refine ⟨hset _ _ ?_, .inl ⟨rfl, rfl⟩⟩
    rintro f' rfl
    exact vfsLseek_file hseek
  | close h =>
    cases h
    refine ⟨hset _ _ ?_, .inl ⟨rfl, rfl⟩⟩
    intro f' hf'
    rw [vfsClose_gone (hcount _)] at hf'
    exact absurd hf' (by simp)

theorem run_call {c : FsCall} {k : ℕ} (h : v.run (.call c k) = some v') :
    c.run v.fs = some v'.fs ∧ ∀ h f', v'.files h = some f' →
      v.files h = some f' ∨ c.opens v.fs = some f' := by
  obtain ⟨s', hrun, hv⟩ := Option.bind_eq_some_iff.mp h
  cases hopen : c.opens v.fs with
  | none =>
    rw [hopen] at hv
    cases hv
    exact ⟨hrun, fun _ _ hf => .inl hf⟩
  | some file =>
    rw [hopen] at hv
    dsimp only at hv
    split at hv
    · exact absurd hv (by simp)
    cases hv
    refine ⟨hrun, ?_⟩
    intro h f' hf'
    replace hf' : Function.update v.files k (some file) h = some f' := hf'
    by_cases hk : h = k
    · rw [hk, Function.update_self] at hf'
      exact .inr hf'
    · rw [Function.update_of_ne hk] at hf'
      exact .inl hf'

theorem opens_file {c : FsCall} {f : File} (hs : s.Wf kids) (hm : FreshMem s)
    (hrun : c.run s = some s') (h : c.opens s = some f) :
    NewFile f ∧ (f.fDentry = rootInode s ∨ s'.Copies f.fDentry) := by
  cases c with
  | vfs c =>
    cases c with
    | «open» path flags mode =>
      obtain ⟨⟨file, s₁⟩, hopen, hfile⟩ := Option.bind_eq_some_iff.mp h
      obtain ⟨⟨file', s₂⟩, hopen', hs'⟩ := Option.map_eq_some_iff.mp hrun
      rw [hopen] at hopen'
      cases hopen'
      cases hs'
      exact (vfsOpen_file hs hm hopen).2 f hfile
    | create path mode => exact absurd h (by simp [FsCall.opens])
    | mkdir path mode => exact absurd h (by simp [FsCall.opens])
    | rename old new => exact absurd h (by simp [FsCall.opens])
    | unlink path => exact absurd h (by simp [FsCall.opens])
    | rmdir path => exact absurd h (by simp [FsCall.opens])
  | createFile path mode content => exact absurd h (by simp [FsCall.opens])
  | createFileBytes path mode data size => exact absurd h (by simp [FsCall.opens])
  | createDir path mode => exact absurd h (by simp [FsCall.opens])

/-! No use after unlink. -/

/-- Every open file refers to the inode it was opened on, which has not been freed: numbers are
never given out twice. -/
def Vfs.InodesInUse (v : Vfs) : Prop :=
  ∀ h f, v.files h = some f →
    v.fs.live f.privateData = true ∧ v.fs.ino f.privateData = f.fDentry.iIno

def UnusedFreedStep (v : Vfs) (x : FileCall × List ℕ) (v' : Vfs) : Prop :=
  FileStep v x v' ∧ ∀ c k, x.1 = .call c k → ∀ t, Frees (v.withMem x.2).fs c t →
    ∀ h f, v.files h = some f → f.privateData ≠ t

structure FilesInv (v : Vfs) : Prop where
  wf : ∃ kids, v.fs.Wf kids
  root_ino : v.fs.ino v.fs.root = 1
  count : ∀ h f, v.files h = some f → f.fCount = 1

namespace FilesInv

theorem withMem (hv : FilesInv v) (mem : List ℕ) : FilesInv (v.withMem mem) where
  wf := hv.wf.imp fun _ hs => hs.of_core rfl
  root_ino := hv.root_ino
  count := hv.count

theorem keeps_root {c : FsCall} {k : ℕ} (hv : FilesInv v) (hm : FreshMem v.fs)
    (h : v.run (.call c k) = some v') : v'.fs.root = v.fs.root ∧ Keeps v.fs v'.fs v.fs.root := by
  obtain ⟨kids, hs⟩ := hv.wf
  have hrun := (run_call h).1
  refine ⟨run_root hs hm hrun, run_keeps hs hm hrun (live_of_isDir hs.root_dir) ?_⟩
  exact fun hf => hf.ne_root hs rfl

theorem call {c : FsCall} {k : ℕ} (hv : FilesInv v) (hm : FreshMem v.fs)
    (h : v.run (.call c k) = some v') : FilesInv v' := by
  obtain ⟨kids, hs⟩ := hv.wf
  obtain ⟨hrun, hfiles⟩ := run_call h
  obtain ⟨hroot, hkeep⟩ := hv.keeps_root hm h
  refine ⟨run_wf hs hm hrun, ?_, ?_⟩
  · rw [hroot, hkeep.2]
    exact hv.root_ino
  · intro h f hf
    rcases hfiles h f hf with hold | hnew
    · exact hv.count h f hold
    · exact (opens_file hs hm hrun hnew).1.fCount

theorem onFile_frame {c : FileCall} (hv : FilesInv v) (hc : ∀ d k, c ≠ .call d k)
    (h : v.run c = some v') :
    (∃ kids, v'.fs.Wf kids) ∧ v'.fs.live = v.fs.live ∧ v'.fs.ino = v.fs.ino ∧
      v'.fs.root = v.fs.root := by
  obtain ⟨kids, hs⟩ := hv.wf
  rcases (run_onFile hv.count hc h).2 with ⟨hcore, -⟩ | ⟨k, f, bytes, junk, -, -, hw, -⟩
  · exact ⟨⟨kids, hs.of_core hcore⟩, live_of_core hcore, ino_of_core hcore, root_of_core hcore⟩
  · obtain ⟨data, cap, hcore⟩ := hw.core
    have hframe := frame_setData v.fs f.privateData data cap
      (max (v.fs.size f.privateData) (f.fPos + bytes.length))
    refine ⟨⟨kids, (Wf.setData hs _ _ _ _).of_core hcore⟩, ?_, ?_, ?_⟩
    · rw [live_of_core hcore, hframe.live]
    · rw [ino_of_core hcore, hframe.ino]
    · rw [root_of_core hcore, hframe.root]

theorem onFile {c : FileCall} (hv : FilesInv v) (hc : ∀ d k, c ≠ .call d k)
    (h : v.run c = some v') : FilesInv v' := by
  obtain ⟨hwf, -, hino, hroot⟩ := hv.onFile_frame hc h
  refine ⟨hwf, ?_, ?_⟩
  · rw [hino, hroot]
    exact hv.root_ino
  · intro h' f' hf'
    obtain ⟨f, hf, hsame⟩ := (run_onFile hv.count hc h).1 h' f' hf'
    rw [hsame.fCount]
    exact hv.count h' f hf

end FilesInv

theorem filesInv_step (v : Vfs) (x : FileCall × List ℕ) (v' : Vfs) (hv : FilesInv v)
    (h : FileStep v x v') : FilesInv v' := by
  obtain ⟨c, mem⟩ := x
  obtain ⟨hm, hrun⟩ := h
  by_cases hc : ∃ d k, c = .call d k
  · obtain ⟨d, k, rfl⟩ := hc
    exact (hv.withMem mem).call hm hrun
  · refine (hv.withMem mem).onFile ?_ hrun
    exact fun d k hdk => hc ⟨d, k, hdk⟩

theorem inUse_call {c : FsCall} {k : ℕ} (hv : FilesInv v) (hu : v.InodesInUse) (hm : FreshMem v.fs)
    (hfree : ∀ t, Frees v.fs c t → ∀ h f, v.files h = some f → f.privateData ≠ t)
    (h : v.run (.call c k) = some v') : v'.InodesInUse := by
  obtain ⟨kids, hs⟩ := hv.wf
  obtain ⟨hrun, hfiles⟩ := run_call h
  intro k f hf
  rcases hfiles k f hf with hold | hnew
  · obtain ⟨hlive, hnum⟩ := hu k f hold
    have hkeep : Keeps v.fs v'.fs f.privateData := by
      refine run_keeps hs hm hrun hlive ?_
      exact fun hf => hfree _ hf k f hold rfl
    exact ⟨hkeep.1, hkeep.2.trans hnum⟩
  · obtain ⟨hfile, hcases⟩ := opens_file hs hm hrun hnew
    rw [hfile.privateData]
    rcases hcases with hdentry | ⟨i, hi, hnum, -⟩
    · obtain ⟨-, hkeep⟩ := hv.keeps_root hm h
      rw [hdentry]
      exact ⟨hkeep.1, hkeep.2.trans hv.root_ino⟩
    · refine ⟨live_iff.mpr ⟨i, hi⟩, ?_⟩
      rw [hnum, ino, field, hi]
      rfl

theorem inUse_onFile {c : FileCall} (hv : FilesInv v) (hu : v.InodesInUse)
    (hc : ∀ d k, c ≠ .call d k) (h : v.run c = some v') : v'.InodesInUse := by
  obtain ⟨-, hlive, hino, -⟩ := hv.onFile_frame hc h
  intro k f' hf'
  obtain ⟨f, hf, hsame⟩ := (run_onFile hv.count hc h).1 k f' hf'
  rw [hlive, hino, hsame.privateData, hsame.fDentry]
  exact hu k f hf

theorem mounted_root_ino (h : Mounted s) : s.ino s.root = 1 := by
  rw [ino, mounted_field h, Function.update_self]

theorem mounted_size (h : Mounted s) (a : ℕ) : s.size a = 0 := by
  rw [Ramfs.size, mounted_field h, Function.update_eq_self]

def Vfs.noFiles (s : Ramfs) : Vfs where
  fs := s
  files _ := none

theorem mounted_filesInv (h : Mounted s) : FilesInv (Vfs.noFiles s) where
  wf := ⟨_, (mounted_wf h).1⟩
  root_ino := mounted_root_ino h
  count _ _ hf := absurd hf (by simp [Vfs.noFiles])

theorem inUse_step (v : Vfs) (x : FileCall × List ℕ) (v' : Vfs) (hv : FilesInv v ∧ v.InodesInUse)
    (h : UnusedFreedStep v x v') : FilesInv v' ∧ v'.InodesInUse := by
  refine ⟨filesInv_step v x v' hv.1 h.1, ?_⟩
  obtain ⟨c, mem⟩ := x
  obtain ⟨⟨hm, hrun⟩, hfree⟩ := h
  by_cases hc : ∃ d k, c = .call d k
  · obtain ⟨d, k, rfl⟩ := hc
    exact inUse_call (hv.1.withMem mem) hv.2 hm (hfree d k rfl) hrun
  · refine inUse_onFile (hv.1.withMem mem) hv.2 ?_ hrun
    exact fun d k hdk => hc ⟨d, k, hdk⟩

/-- Runs that free no inode while a file is open on it never leave an open file without its
inode. -/
theorem open_inodes_in_use {s₀ : Ramfs} {calls : List (FileCall × List ℕ)} (hmount : Mounted s₀)
    (hrun : Exec UnusedFreedStep (Vfs.noFiles s₀) calls v) : v.InodesInUse := by
  refine (hrun.invariant inUse_step ⟨mounted_filesInv hmount, ?_⟩).2
  exact fun _ _ hf => absurd hf (by simp [Vfs.noFiles])

/-- The entry that `vfs_unlink` and `vfs_rmdir` find. -/
def entryOf (s : Ramfs) (path : Str) : Option ℕ :=
  (vfsLookupParent s path).bind fun r => r.1.bind fun found =>
    (ramfsLookup r.2.kzalloc.2 found.1 found.2).bind fun r => r.1.map Inode.iPrivate

theorem Frees.entryOf_eq {path : Str} {t : ℕ} (h : Frees s (.vfs (.unlink path)) t) :
    entryOf s path = some t := by
  cases h with
  | unlink hlook h0 hfind hmode =>
    unfold entryOf
    rw [hlook]
    dsimp only [Option.bind_some]
    rw [hfind]
    rfl

theorem fileStep_of_run {c : FileCall} {mem : List ℕ} (hm : (mem.all fun a => !v.fs.live a) = true)
    (h : (v.withMem mem).run c = some v') : FileStep v (c, mem) v' := ⟨freshMem_of_all hm, h⟩

theorem unusedFreedStep_of_run {c : FsCall} {k : ℕ} {mem : List ℕ}
    (hm : (mem.all fun a => !v.fs.live a) = true) (h : (v.withMem mem).run (.call c k) = some v')
    (hfree : ∀ t, Frees (v.withMem mem).fs c t → ∀ h f, v.files h = some f → f.privateData ≠ t) :
    UnusedFreedStep v (.call c k, mem) v' := by
  refine ⟨fileStep_of_run hm h, ?_⟩
  intro d j hd
  cases hd
  exact hfree

theorem open_inodes_in_use_three_calls :
    ∃ s₀ v, Mounted s₀ ∧ Exec UnusedFreedStep (Vfs.noFiles s₀)
      [(.call (.vfs (.open [0x2f, 0x66] oCreat 0o644)) 7, [1, 0x2000, 2, 3]),
        (.call (.vfs (.create [0x2f, 0x67] 0o644)) 8, [1, 0x3000, 2]),
        (.call (.vfs (.unlink [0x2f, 0x67])) 8, [1, 2])] v ∧
      (v.files 7).isSome = true ∧ v.fs.live 0x3000 = false ∧ v.InodesInUse := by
  have heval : ((ramfsMount ⟨fun _ => none, 0, 0, 0, [0x1000]⟩).bind fun s₀ =>
      ((Vfs.noFiles s₀).withMem [1, 0x2000, 2, 3]).run
        (.call (.vfs (.open [0x2f, 0x66] oCreat 0o644)) 7) |>.bind fun v₁ =>
      (v₁.withMem [1, 0x3000, 2]).run (.call (.vfs (.create [0x2f, 0x67] 0o644)) 8) |>.bind fun v₂ =>
      (v₂.withMem [1, 2]).run (.call (.vfs (.unlink [0x2f, 0x67])) 8) |>.map fun v₃ =>
        ([1, 0x2000, 2, 3].all fun a => !s₀.live a) && ([1, 0x3000, 2].all fun a => !v₁.fs.live a) &&
        ([1, 2].all fun a => !v₂.fs.live a) &&
        ((FsCall.opens ((Vfs.noFiles s₀).withMem [1, 0x2000, 2, 3]).fs
          (.vfs (.open [0x2f, 0x66] oCreat 0o644))).map File.privateData == some 0x2000) &&
        (entryOf (v₂.withMem [1, 2]).fs [0x2f, 0x67] == some 0x3000) &&
        (v₃.files 7).isSome && !v₃.fs.live 0x3000) = some true := by decide +kernel
  obtain ⟨s₀, h₀, heval⟩ := Option.bind_eq_some_iff.mp heval
  obtain ⟨v₁, h₁, heval⟩ := Option.bind_eq_some_iff.mp heval
  obtain ⟨v₂, h₂, heval⟩ := Option.bind_eq_some_iff.mp heval
  obtain ⟨v₃, h₃, heval⟩ := Option.map_eq_some_iff.mp heval
  simp only [Bool.and_eq_true, beq_iff_eq] at heval
  obtain ⟨⟨⟨⟨⟨⟨hm₁, hm₂⟩, hm₃⟩, hopen⟩, hentry⟩, hsome⟩, hdead⟩ := heval
  have hfiles₁ : ∀ h f, v₁.files h = some f → f.privateData = 0x2000 := by
    intro h f hf
    rcases (run_call h₁).2 h f hf with hnone | hnew
    · exact absurd hnone (by simp [Vfs.noFiles, Vfs.withMem])
    · rw [hnew] at hopen
      exact Option.some.inj hopen
  have hfiles₂ : ∀ h f, v₂.files h = some f → f.privateData = 0x2000 := by
    intro h f hf
    rcases (run_call h₂).2 h f hf with hold | hnew
    · exact hfiles₁ h f hold
    · exact absurd hnew (by simp [FsCall.opens])
  have hunlink : ∀ t, Frees (v₂.withMem [1, 2]).fs (.vfs (.unlink [0x2f, 0x67])) t →
      ∀ h f, v₂.files h = some f → f.privateData ≠ t := by
    intro t hfree h f hf
    have ht := hfree.entryOf_eq
    rw [hentry] at ht
    rw [hfiles₂ h f hf, ← Option.some.inj ht]
    decide
  have hstep₁ := unusedFreedStep_of_run hm₁ h₁ fun _ hfree => by cases hfree
  have hstep₂ := unusedFreedStep_of_run hm₂ h₂ fun _ hfree => by cases hfree
  have hstep₃ := unusedFreedStep_of_run hm₃ h₃ hunlink
  have hrun := Exec.cons hstep₁ (.cons hstep₂ (.cons hstep₃ (.nil v₃)))
  refine ⟨s₀, v₃, ⟨_, h₀⟩, hrun, hsome, by simpa using hdead, ?_⟩
  exact open_inodes_in_use ⟨_, h₀⟩ hrun

theorem unlink_frees_open_inode :
    ¬ ∀ (s₀ : Ramfs) (calls : List (FileCall × List ℕ)) (v : Vfs), Mounted s₀ →
      Exec FileStep (Vfs.noFiles s₀) calls v → v.InodesInUse := by
  have heval : ((ramfsMount ⟨fun _ => none, 0, 0, 0, [0x1000]⟩).bind fun s₀ =>
      ((Vfs.noFiles s₀).withMem [1, 0x2000, 2, 3]).run
        (.call (.vfs (.open [0x2f, 0x66] oCreat 0o644)) 7) |>.bind fun v₁ =>
      (v₁.withMem [1, 2]).run (.call (.vfs (.unlink [0x2f, 0x66])) 8) |>.map fun v₂ =>
        ([1, 0x2000, 2, 3].all fun a => !s₀.live a) && ([1, 2].all fun a => !v₁.fs.live a) &&
        ((v₂.files 7).map fun f => v₂.fs.live f.privateData) == some false) = some true := by
    decide +kernel
  obtain ⟨s₀, h₀, heval⟩ := Option.bind_eq_some_iff.mp heval
  obtain ⟨v₁, h₁, heval⟩ := Option.bind_eq_some_iff.mp heval
  obtain ⟨v₂, h₂, heval⟩ := Option.map_eq_some_iff.mp heval
  simp only [Bool.and_eq_true, beq_iff_eq] at heval
  obtain ⟨⟨hm₁, hm₂⟩, hdead⟩ := heval
  intro hall
  have hrun : Exec FileStep (Vfs.noFiles s₀) _ v₂ :=
    .cons (fileStep_of_run hm₁ h₁) (.cons (fileStep_of_run hm₂ h₂) (.nil v₂))
  obtain ⟨f, hf, hfdead⟩ := Option.map_eq_some_iff.mp hdead
  have hlive := (hall s₀ _ v₂ ⟨_, h₀⟩ hrun 7 f hf).1
  rw [hlive] at hfdead
  exact absurd hfdead (by decide)

/-! The size of an open file. -/

structure Logged where
  vfs : Vfs
  log : List (ℕ × ℕ)

/-- The largest end of a write to the inode at `a`, or what the file has had before, if that is
more. -/
def largestEnd (before : ℕ) (log : List (ℕ × ℕ)) (a : ℕ) : ℕ :=
  ((log.filter fun e => e.1 = a).map Prod.snd).foldr max before

/-- `vfs_open` and the calls with open files. -/
def FileCall.OnFiles : FileCall → Prop
  | .call (.vfs (.open _ _ _)) _ => True
  | .call _ _ => False
  | _ => True

def LogStep (l : Logged) (x : FileCall × List ℕ) (l' : Logged) : Prop :=
  x.1.OnFiles ∧ FileStep l.vfs x l'.vfs ∧ l'.log = (l.vfs.withMem x.2).completed x.1 ++ l.log

def InPlaceStep (l : Logged) (x : FileCall × List ℕ) (l' : Logged) : Prop :=
  LogStep l x l' ∧ ∀ k bytes junk, x.1 = .write k (some bytes) junk →
    ∀ f inode, l.vfs.files k = some f → f.fOp = .ramfsFileOps →
      l.vfs.fs.inodes f.privateData = some inode →
      f.fPos + bytes.length ≤ inode.size ∨
        NoRoom (l.vfs.withMem x.2).fs inode ((f.fPos + bytes.length) % 2 ^ 64)

/-- Seeking to the end of any open file leads to the number of bytes stored, which is the largest
end of a write. -/
def Logged.SeeksEnd (before : ℕ → ℕ) (l : Logged) : Prop :=
  ∀ h f, l.vfs.files h = some f → f.fOp = .ramfsFileOps →
    (vfsLseek (some f) 0 .seekEnd).map Prod.fst = some (l.vfs.fs.size f.privateData : ℤ) ∧
    l.vfs.fs.size f.privateData = largestEnd (before f.privateData) l.log f.privateData

theorem largestEnd_cons (before : ℕ) (e : ℕ × ℕ) (log : List (ℕ × ℕ)) (a : ℕ) :
    largestEnd before (e :: log) a =
      if e.1 = a then max e.2 (largestEnd before log a) else largestEnd before log a := by
  unfold largestEnd
  by_cases ha : e.1 = a
  · rw [List.filter_cons_of_pos (by simpa using ha), if_pos ha]
    rfl
  · rw [List.filter_cons_of_neg (by simpa using ha), if_neg ha]

structure SizeInv (before : ℕ → ℕ) (l : Logged) : Prop where
  files : FilesInv l.vfs
  copy : ∀ h f, l.vfs.files h = some f → f.fOp = .ramfsFileOps →
    f.fDentry.iSize = l.vfs.fs.size f.privateData
  size : ∀ a, l.vfs.fs.size a = largestEnd (before a) l.log a
  same : l.vfs.fs.size = before

theorem Wrote.size_eq {f : File} {bytes : List UInt8} (h : Wrote s f bytes s')
    (hin : f.fPos + bytes.length ≤ s.size f.privateData) : s'.size = s.size := by
  obtain ⟨inode, hi, -⟩ := h.grows
  obtain ⟨data, cap, hcore⟩ := h.core
  have hlive : s.live f.privateData = true := live_iff.mpr ⟨inode, hi⟩
  rw [size_of_core hcore, max_eq_left hin]
  have hupd : (s.setData f.privateData data cap (s.size f.privateData)).size =
      Function.update s.size f.privateData (s.size f.privateData) := field_upd hlive fun _ => rfl
  rw [hupd, Function.update_eq_self]

theorem sizeInv_open {before : ℕ → ℕ} {l : Logged} {path : Str} {flags mode k : ℕ} {mem : List ℕ}
    (hl : SizeInv before l) (hm : FreshMem (l.vfs.withMem mem).fs)
    (h : (l.vfs.withMem mem).run (.call (.vfs (.open path flags mode)) k) = some v') :
    SizeInv before ⟨v', l.log⟩ := by
  have hv := hl.files.withMem mem
  obtain ⟨kids, hs⟩ := hv.wf
  obtain ⟨hrun, hfiles⟩ := run_call h
  obtain ⟨⟨file, s₁⟩, hopen, hs₁⟩ := Option.map_eq_some_iff.mp hrun
  obtain ⟨hsize, hfile⟩ := vfsOpen_file hs hm hopen
  have hsame : v'.fs.size = l.vfs.fs.size := by
    rw [← hs₁]
    exact hsize
  refine ⟨hv.call hm h, ?_, ?_, ?_⟩
  · intro h f hf hop
    show f.fDentry.iSize = v'.fs.size f.privateData
    rcases hfiles h f hf with hold | hnew
    · rw [hsame]
      exact hl.copy h f hold hop
    · obtain ⟨hnewf, hcases⟩ := opens_file hs hm hrun hnew
      rcases hcases with hroot | ⟨c, hc, -, hcsize⟩
      · rw [hnewf.fOp, hroot] at hop
        exact absurd hop (by simp [rootInode])
      · rw [hnewf.privateData, Fs.size_eq hc, hcsize]
  · intro a
    show v'.fs.size a = _
    rw [hsame]
    exact hl.size a
  · exact hsame.trans hl.same

theorem sizeInv_onFile {before : ℕ → ℕ} {l : Logged} {c : FileCall} {mem : List ℕ}
    (hl : SizeInv before l) (hc : ∀ d k, c ≠ .call d k)
    (hin : ∀ k bytes junk, c = .write k (some bytes) junk → ∀ f inode, l.vfs.files k = some f →
      f.fOp = .ramfsFileOps → l.vfs.fs.inodes f.privateData = some inode →
      f.fPos + bytes.length ≤ inode.size ∨
        NoRoom (l.vfs.withMem mem).fs inode ((f.fPos + bytes.length) % 2 ^ 64))
    (h : (l.vfs.withMem mem).run c = some v') :
    SizeInv before ⟨v', (l.vfs.withMem mem).completed c ++ l.log⟩ := by
  have hv := hl.files.withMem mem
  obtain ⟨hfiles, hfs⟩ := run_onFile hv.count hc h
  have hkey : v'.fs.size = l.vfs.fs.size ∧ ∀ a, l.vfs.fs.size a =
      largestEnd (before a) ((l.vfs.withMem mem).completed c ++ l.log) a := by
    rcases hfs with ⟨hcore, hdone⟩ | ⟨k, f, bytes, junk, rfl, hf, hw, hdone⟩
    · rw [hdone]
      exact ⟨size_of_core hcore, hl.size⟩
    · obtain ⟨inode, hi, hroom⟩ := hw.grows
      have hend : f.fPos + bytes.length ≤ l.vfs.fs.size f.privateData := by
        refine le_of_le_of_eq ?_ (Fs.size_eq hi).symm
        exact (hin k bytes junk rfl f inode hf hw.op hi).resolve_right hroom
      refine ⟨hw.size_eq hend, ?_⟩
      intro a
      rw [hdone, List.singleton_append, largestEnd_cons, ← hl.size a]
      split
      · next ha =>
        rw [← ha]
        exact (max_eq_right hend).symm
      · rfl
  obtain ⟨hsame, hlog⟩ := hkey
  refine ⟨hv.onFile hc h, ?_, ?_, hsame.trans hl.same⟩
  · intro h f' hf' hop
    obtain ⟨f, hf, hsf⟩ := hfiles h f' hf'
    show f'.fDentry.iSize = v'.fs.size f'.privateData
    rw [hsf.fDentry, hsf.privateData, hsame]
    exact hl.copy h f hf (hsf.fOp ▸ hop)
  · intro a
    show v'.fs.size a = _
    rw [hsame]
    exact hlog a

theorem sizeInv_step (before : ℕ → ℕ) (l : Logged) (x : FileCall × List ℕ) (l' : Logged)
    (hl : SizeInv before l) (h : InPlaceStep l x l') : SizeInv before l' := by
  obtain ⟨c, mem⟩ := x
  obtain ⟨v', log'⟩ := l'
  obtain ⟨⟨hon, ⟨hm, hrun⟩, rfl⟩, hin⟩ := h
  by_cases hc : ∃ d k, c = .call d k
  · obtain ⟨d, k, rfl⟩ := hc
    cases d with
    | vfs d =>
      cases d with
      | «open» path flags mode => exact sizeInv_open hl hm hrun
      | create path mode => exact absurd hon id
      | mkdir path mode => exact absurd hon id
      | rename old new => exact absurd hon id
      | unlink path => exact absurd hon id
      | rmdir path => exact absurd hon id
    | createFile path mode content => exact absurd hon id
    | createFileBytes path mode data size => exact absurd hon id
    | createDir path mode => exact absurd hon id
  · refine sizeInv_onFile hl ?_ hin hrun
    exact fun d k hdk => hc ⟨d, k, hdk⟩

theorem SizeInv.seeksEnd {before : ℕ → ℕ} {l : Logged} (hl : SizeInv before l)
    (hfit : ∀ a, before a ≤ Mm.maxAlloc) : l.SeeksEnd before := by
  intro h f hf hop
  refine ⟨?_, hl.size _⟩
  have hle := hfit f.privateData
  rw [← hl.same, ← hl.copy h f hf hop] at hle
  have hmax : (Mm.maxAlloc : ℤ) < 2 ^ 63 := by decide
  unfold vfsLseek
  dsimp only
  rw [← hl.copy h f hf hop, add_zero, if_neg (by omega), if_neg (by omega)]
  rfl

/-- Runs of `vfs_open` and calls with open files, from any state in which no file is open, whose
writes all end inside the file or fail. A buffer holds at most `MAX_ALLOC` bytes. -/
theorem seek_end_is_size {s₀ : Ramfs} {earlier calls : List (FileCall × List ℕ)} {l : Logged}
    (hmount : Mounted s₀) (hbefore : Exec FileStep (Vfs.noFiles s₀) earlier v)
    (hclosed : ∀ h, v.files h = none) (hfit : ∀ a, v.fs.size a ≤ Mm.maxAlloc)
    (hrun : Exec InPlaceStep ⟨v, []⟩ calls l) : l.SeeksEnd v.fs.size := by
  have hv : FilesInv v := hbefore.invariant filesInv_step (mounted_filesInv hmount)
  have hstart : SizeInv v.fs.size ⟨v, []⟩ := by
    refine ⟨hv, ?_, fun _ => rfl, rfl⟩
    intro h f hf
    exact absurd ((hclosed h).symm.trans hf) (by simp)
  exact (hrun.invariant (sizeInv_step v.fs.size) hstart).seeksEnd hfit

theorem logStep_of_run {c : FileCall} {mem : List ℕ} (log : List (ℕ × ℕ))
    (hm : (mem.all fun a => !v.fs.live a) = true) (h : (v.withMem mem).run c = some v')
    (hc : c.OnFiles) :
    LogStep ⟨v, log⟩ (c, mem) ⟨v', (v.withMem mem).completed c ++ log⟩ :=
  ⟨hc, fileStep_of_run hm h, rfl⟩

theorem createFile_live {path : Str} {mode a : ℕ} {content : Option Str} {s₀ : Ramfs}
    (hmount : Mounted s₀) (hm : FreshMem s) (hcore : s.core = s₀.core)
    (h : FsCall.run s (.createFile path mode content) = some s') (ha : s'.live a = true) :
    a = s₀.root ∨ a = s.kmalloc.headD 0 := by
  have hs : s.Wf fun _ => [] := (mounted_wf hmount).1.of_core hcore
  have hold : ∀ b, s.live b = true → b = s₀.root := by
    intro b hb
    rw [live_of_core hcore] at hb
    exact (mounted_wf hmount).2 b hb
  rcases run_outcome hs hm h with hcore' | ⟨e, kids', hedit, heff⟩
  · rw [live_of_core hcore'] at ha
    exact .inl (hold a ha)
  · have hmade : ∀ {d mode : ℕ} {name : Str},
        Made s (fun _ => []) d (s.kmalloc.headD 0) mode name s' kids' →
        a = s₀.root ∨ a = s.kmalloc.headD 0 := by
      intro d mode name hmade
      by_cases hah : a = s.kmalloc.headD 0
      · exact .inr hah
      · rw [hmade.live, Function.update_of_ne hah] at ha
        exact .inl (hold a ha)
    cases hedit with
    | createFile => exact hmade heff
    | createFileRoot => exact hmade heff

theorem seek_end_is_size_overwrite :
    ∃ s₀ v l, Mounted s₀ ∧ Exec FileStep (Vfs.noFiles s₀)
      [(.call (.createFile [0x2f, 0x66] 0o644 (some [0x61, 0x62, 0x63])) 0, [0x2000, 1])] v ∧
      Exec InPlaceStep ⟨v, []⟩ [(.call (.vfs (.open [0x2f, 0x66] 0 0)) 7, [1, 2, 3]),
        (.write 7 (some [0x78, 0x79]) fun _ => 0, [])] l ∧
      l.log = [(0x2000, 2)] ∧ l.vfs.fs.size 0x2000 = 3 ∧ l.SeeksEnd v.fs.size := by
  have heval : ((ramfsMount ⟨fun _ => none, 0, 0, 0, [0x1000]⟩).bind fun s₀ =>
      ((Vfs.noFiles s₀).withMem [0x2000, 1]).run
        (.call (.createFile [0x2f, 0x66] 0o644 (some [0x61, 0x62, 0x63])) 0) |>.bind fun v =>
      (v.withMem [1, 2, 3]).run (.call (.vfs (.open [0x2f, 0x66] 0 0)) 7) |>.bind fun v₁ =>
      (v₁.withMem []).run (.write 7 (some [0x78, 0x79]) fun _ => 0) |>.map fun v₂ =>
        ([0x2000, 1].all fun a => !s₀.live a) && ([1, 2, 3].all fun a => !v.fs.live a) &&
        (s₀.root == 0x1000) && (v.fs.size 0x1000 == 0) && (v.fs.size 0x2000 == 3) &&
        ((v₁.files 7).map fun f => (f.privateData, f.fPos)) == some (0x2000, 0) &&
        (v₁.fs.size 0x2000 == 3) && ((v₁.withMem []).completed
          (.write 7 (some [0x78, 0x79]) fun _ => 0) == [(0x2000, 2)]) &&
        (v₂.fs.size 0x2000 == 3)) = some true := by decide +kernel
  obtain ⟨s₀, h₀, heval⟩ := Option.bind_eq_some_iff.mp heval
  obtain ⟨v, h₁, heval⟩ := Option.bind_eq_some_iff.mp heval
  obtain ⟨v₁, h₂, heval⟩ := Option.bind_eq_some_iff.mp heval
  obtain ⟨v₂, h₃, heval⟩ := Option.map_eq_some_iff.mp heval
  simp only [Bool.and_eq_true, beq_iff_eq] at heval
  obtain ⟨⟨⟨⟨⟨⟨⟨⟨hm₁, hm₂⟩, hroot⟩, hsize0⟩, hsize1⟩, hfile⟩, hsize2⟩, hlog⟩, hsize3⟩ := heval
  have hmount : Mounted s₀ := ⟨_, h₀⟩
  have hclosed : ∀ h, v.files h = none := by
    intro h
    cases hf : v.files h with
    | none => rfl
    | some f => exact absurd ((run_call h₁).2 h f hf) (by simp [Vfs.noFiles, Vfs.withMem, FsCall.opens])
  have hfit : ∀ a, v.fs.size a ≤ Mm.maxAlloc := by
    intro a
    cases ha : v.fs.live a with
    | false =>
      rw [size_dead ha]
      exact Nat.zero_le _
    | true =>
      rcases createFile_live hmount (freshMem_of_all hm₁) rfl (run_call h₁).1 ha with rfl | rfl
      · rw [hroot, hsize0]
        exact Nat.zero_le _
      · show v.fs.size 0x2000 ≤ _
        rw [hsize1]
        decide
  have hopen : InPlaceStep ⟨v, []⟩ (.call (.vfs (.open [0x2f, 0x66] 0 0)) 7, [1, 2, 3]) ⟨v₁, []⟩ := by
    refine ⟨logStep_of_run [] hm₂ h₂ trivial, ?_⟩
    intro k bytes junk hk
    exact absurd hk (by simp)
  have hwrite : InPlaceStep ⟨v₁, []⟩ (.write 7 (some [0x78, 0x79]) fun _ => 0, [])
      ⟨v₂, (v₁.withMem []).completed (.write 7 (some [0x78, 0x79]) fun _ => 0) ++ []⟩ := by
    refine ⟨logStep_of_run [] rfl h₃ trivial, ?_⟩
    intro k bytes junk hk f inode hf hop hi
    cases hk
    replace hf : v₁.files 7 = some f := hf
    rw [hf] at hfile
    obtain ⟨hpriv, hpos⟩ := pair_inj hfile
    have hsz := size_eq hi
    rw [hpriv] at hsz
    rw [← hsz, hpos]
    refine .inl ?_
    show 0 + 2 ≤ v₁.fs.size 0x2000
    rw [hsize2]
    decide
  have hearlier := Exec.cons (fileStep_of_run hm₁ h₁) (.nil v)
  have hrun := Exec.cons hopen (.cons hwrite (.nil _))
  refine ⟨s₀, v, _, hmount, hearlier, hrun, ?_, hsize3, ?_⟩
  · rw [hlog]
    rfl
  · exact seek_end_is_size hmount hearlier hclosed hfit hrun

theorem seek_end_misses_write :
    ¬ ∀ (s₀ : Ramfs) (earlier calls : List (FileCall × List ℕ)) (v : Vfs) (l : Logged),
      Mounted s₀ → Exec FileStep (Vfs.noFiles s₀) earlier v → (∀ h, v.files h = none) →
      (∀ a, v.fs.size a ≤ Mm.maxAlloc) → Exec LogStep ⟨v, []⟩ calls l → l.SeeksEnd v.fs.size := by
  have heval : ((ramfsMount ⟨fun _ => none, 0, 0, 0, [0x1000]⟩).bind fun s₀ =>
      ((Vfs.noFiles s₀).withMem [1, 0x2000, 2, 3]).run
        (.call (.vfs (.open [0x2f, 0x66] oCreat 0o644)) 7) |>.bind fun v₁ =>
      (v₁.withMem [4]).run (.write 7 (some [0x61]) fun _ => 0) |>.map fun v₂ =>
        ([1, 0x2000, 2, 3].all fun a => !s₀.live a) && ([4].all fun a => !v₁.fs.live a) &&
        ((v₂.files 7).map fun f => (decide (f.fOp = .ramfsFileOps), v₂.fs.size f.privateData,
          (vfsLseek (some f) 0 .seekEnd).map Prod.fst)) == some (true, 1, some 0)) = some true := by
    decide +kernel
  obtain ⟨s₀, h₀, heval⟩ := Option.bind_eq_some_iff.mp heval
  obtain ⟨v₁, h₁, heval⟩ := Option.bind_eq_some_iff.mp heval
  obtain ⟨v₂, h₂, heval⟩ := Option.map_eq_some_iff.mp heval
  simp only [Bool.and_eq_true, beq_iff_eq] at heval
  obtain ⟨⟨hm₁, hm₂⟩, hend⟩ := heval
  intro hall
  have hstep₁ := logStep_of_run [] hm₁ h₁ trivial
  have hstep₂ := logStep_of_run [] hm₂ h₂ trivial
  have hfit : ∀ a, (Vfs.noFiles s₀).fs.size a ≤ Mm.maxAlloc := by
    intro a
    refine le_of_eq_of_le (mounted_size ⟨_, h₀⟩ a) (Nat.zero_le _)
  obtain ⟨f, hf, hvals⟩ := Option.map_eq_some_iff.mp hend
  simp only [Prod.mk.injEq, decide_eq_true_eq] at hvals
  obtain ⟨hop, hsize, hseek⟩ := hvals
  have hrun := Exec.cons hstep₁ (.cons hstep₂ (.nil _))
  have hbad := (hall s₀ [] _ _ _ ⟨_, h₀⟩ (.nil _) (fun _ => rfl) hfit hrun 7 f hf hop).1
  rw [hseek] at hbad
  replace hbad := Option.some.inj hbad
  rw [hsize] at hbad
  exact absurd hbad (by decide)

end GcAos.Fs
