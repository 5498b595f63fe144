import GcAos.Fs.Ext4Frame

/-! Mounting a device, unmounting it, and what is found when it is mounted again. -/

namespace GcAos.Fs
open Lib Ext4 Draft

namespace Ext4Fs

def has64bit (fs : Ext4Fs) : Prop := fs.super .featureIncompat &&& ext4FeatureIncompat64bit ≠ 0

instance (fs : Ext4Fs) : Decidable fs.has64bit := inferInstanceAs (Decidable (_ ≠ _))

def totalBlocks (fs : Ext4Fs) : ℕ :=
  if fs.has64bit then fs.super .blocksCountLo ||| fs.super .blocksCountHi <<< 32
  else fs.super .blocksCountLo

/-- What `ext4_mount` computes from the superblock. A shift out of the 32 bits of the block size
leaves 0. -/
def parameters (fs : Ext4Fs) : Ext4Fs :=
  { fs with
    blockSize := 1024 * 2 ^ fs.super .logBlockSize % 2 ^ 32
    blocksPerGroup := fs.super .blocksPerGroup
    inodesPerGroup := fs.super .inodesPerGroup
    inodeSize := if ext4DynamicRev ≤ fs.super .revLevel then fs.super .inodeSize else 128
    groupCount :=
      (fs.totalBlocks + fs.super .blocksPerGroup - 1) % 2 ^ 64 / fs.super .blocksPerGroup % 2 ^ 32
    descSize := if fs.has64bit then fs.super .descSize else 32 }

def gdBlock (fs : Ext4Fs) : ℕ := if fs.blockSize = 1024 then 2 else 1

def gdPerBlock (fs : Ext4Fs) : ℕ := fs.blockSize / fs.descSize

def gdBlocksNeeded (fs : Ext4Fs) : ℕ :=
  (fs.groupCount + fs.gdPerBlock - 1) % 2 ^ 32 / fs.gdPerBlock

def descBytes (fs : Ext4Fs) : ℕ := min fs.descSize ext4GroupDesc.size

/-- Copying `n` descriptors from `buf`, for the groups from `first` on. -/
def copyDescs (fs : Ext4Fs) (buf : Bytes) (first n : ℕ) : Ext4Fs :=
  { fs with
    groupDescs := fun group =>
      if first ≤ group ∧ group < first + n then
        (fs.groupDescs group).blit 0 fs.descBytes fun i => buf ((group - first) * fs.descSize + i)
      else fs.groupDescs group }

end Ext4Fs

namespace Ext4

/-- The loop of `ext4_mount` over the blocks of descriptors. -/
def readDescs : List ℕ → Ext4 → Option Ext4
  | [], s => some s
  | b :: bs, s =>
    let (buf?, s) := s.readBlock (s.fs.gdBlock + b)
    match buf? with
    | none => none
    | some buf =>
      let gdInBlock :=
        if b = s.fs.gdBlocksNeeded - 1 then s.fs.groupCount - b * s.fs.gdPerBlock
        else s.fs.gdPerBlock
      readDescs bs { s with fs := s.fs.copyDescs buf (b * s.fs.gdPerBlock) gdInBlock }

/-- `ext4_mount`, with `heap` in the memory it gets for the descriptors; `none` when it returns -1
or divides by 0. -/
def mount (device heap : ℕ → Bytes) (kmallocs ios : List Bool) : Option Ext4 :=
  let fs : Ext4Fs :=
    { sb := fun _ => 0
      blockSize := 0
      blocksPerGroup := 0
      inodesPerGroup := 0
      inodeSize := 0
      groupCount := 0
      descSize := 0
      groupDescs := heap
      device := device }
  let (ok, s) := kmalloc ⟨fs, kmallocs, ios⟩
  if !ok then none
  else
    let (buf?, s) := s.readBlock 1
    match buf? with
    | none => none
    | some buf =>
      let fs := { s.fs with sb := s.fs.sb.blit 0 ext4Superblock.size buf }
      if fs.super .magic ≠ ext4SuperMagic then none
      else
        let s : Ext4 := { s with fs := fs.parameters }
        if s.fs.blocksPerGroup = 0 ∨ s.fs.gdPerBlock = 0 then none
        else
          let (ok, s) := s.kmalloc
          if !ok then none
          else
            let (ok, s) := s.kmalloc
            if !ok then none else readDescs (List.range s.fs.gdBlocksNeeded) s

def unmount (s : Ext4) : Ext4 := s.syncSuperblock.2

def remount (s : Ext4) (heap : ℕ → Bytes) : Option Ext4 :=
  mount s.unmount.fs.device heap s.unmount.kmallocs s.unmount.ios

end Ext4

namespace Ext4Fs

def SameSuper (fs fs' : Ext4Fs) : Prop := ∀ i < ext4Superblock.size, fs.sb i = fs'.sb i

structure SameDescs (fs fs' : Ext4Fs) : Prop where
  groupCount : fs.groupCount = fs'.groupCount
  descSize : fs.descSize = fs'.descSize
  bytes : ∀ group < fs.groupCount, ∀ i < fs.descBytes,
    fs.groupDescs group i = fs'.groupDescs group i

theorem SameDescs.symm {fs fs' : Ext4Fs} (h : fs.SameDescs fs') : fs'.SameDescs fs where
  groupCount := h.groupCount.symm
  descSize := h.descSize.symm
  bytes group hgroup i hi := by
    rw [descBytes, ← h.descSize] at hi
    exact (h.bytes group (h.groupCount ▸ hgroup) i hi).symm

theorem SameDescs.trans {fs fs' fs'' : Ext4Fs} (h : fs.SameDescs fs') (h' : fs'.SameDescs fs'') :
    fs.SameDescs fs'' where
  groupCount := h.groupCount.trans h'.groupCount
  descSize := h.descSize.trans h'.descSize
  bytes group hgroup i hi := by
    refine (h.bytes group hgroup i hi).trans (h'.bytes group (h.groupCount ▸ hgroup) i ?_)
    rw [descBytes, ← h.descSize]
    exact hi

def diskDesc (fs : Ext4Fs) (device : ℕ → Bytes) (group i : ℕ) : UInt8 :=
  device (fs.gdBlock + group / fs.gdPerBlock) (group % fs.gdPerBlock * fs.descSize + i)

/-- Rounding the number of descriptor blocks up does not overflow. -/
def DescsFit (fs : Ext4Fs) : Prop := fs.groupCount + fs.gdPerBlock ≤ 2 ^ 32

theorem gdBlocksNeeded_bounds {fs : Ext4Fs} (hpos : 0 < fs.gdPerBlock) (hfit : fs.DescsFit) :
    fs.groupCount ≤ fs.gdBlocksNeeded * fs.gdPerBlock ∧
      (fs.gdBlocksNeeded - 1) * fs.gdPerBlock ≤ fs.groupCount := by
  have hlt : fs.groupCount + fs.gdPerBlock - 1 < 2 ^ 32 := by
    rw [DescsFit] at hfit
    omega
  rw [gdBlocksNeeded, Nat.mod_eq_of_lt hlt]
  have hdiv := Nat.lt_div_mul_add hpos (a := fs.groupCount + fs.gdPerBlock - 1)
  have hle := Nat.div_mul_le_self (fs.groupCount + fs.gdPerBlock - 1) fs.gdPerBlock
  rw [Nat.sub_mul]
  omega

end Ext4Fs

namespace Ext4

theorem readBlock_of_nil {s : Ext4} (hio : s.ios = []) (b : ℕ) :
    s.readBlock b = (some (s.fs.device b), s) := by
  obtain ⟨fs, kmallocs, ios⟩ := s
  obtain rfl : ios = [] := hio
  rfl

theorem readDescs_eq {s : Ext4} (hio : s.ios = []) (hpos : 0 < s.fs.gdPerBlock) (a n : ℕ) :
    ∃ descs, readDescs (List.range' a n) s = some { s with fs := { s.fs with groupDescs := descs } } ∧
      (s.fs.DescsFit → a + n = s.fs.gdBlocksNeeded →
        (∀ group < a * s.fs.gdPerBlock, descs group = s.fs.groupDescs group) ∧
        ∀ group < s.fs.groupCount, a * s.fs.gdPerBlock ≤ group → ∀ i < s.fs.descBytes,
          descs group i = s.fs.diskDesc s.fs.device group i) := by
  induction n generalizing a s with
  | zero =>
    refine ⟨s.fs.groupDescs, rfl, fun hfit ha => ⟨fun _ _ => rfl, fun group hgroup hle => ?_⟩⟩
    have hall := (Ext4Fs.gdBlocksNeeded_bounds hpos hfit).1
    rw [← ha, Nat.add_zero] at hall
    omega
  | succ n ih =>
    generalize hcount : (if a = s.fs.gdBlocksNeeded - 1 then
      s.fs.groupCount - a * s.fs.gdPerBlock else s.fs.gdPerBlock) = count
    generalize hcopy : s.fs.copyDescs (s.fs.device (s.fs.gdBlock + a)) (a * s.fs.gdPerBlock) count =
      fs₁
    have hparams : fs₁.gdPerBlock = s.fs.gdPerBlock ∧ fs₁.DescsFit = s.fs.DescsFit ∧
        fs₁.gdBlocksNeeded = s.fs.gdBlocksNeeded ∧ fs₁.groupCount = s.fs.groupCount ∧
        fs₁.descBytes = s.fs.descBytes ∧ fs₁.diskDesc fs₁.device = s.fs.diskDesc s.fs.device := by
      subst hcopy
      exact ⟨rfl, rfl, rfl, rfl, rfl, rfl⟩
    obtain ⟨hper, hfit₁, hneed, hgroups, hbytes, hdisk⟩ := hparams
    obtain ⟨descs, hrest, hspec⟩ := ih (s := { s with fs := fs₁ }) hio (hper ▸ hpos) (a + 1)
    dsimp only at hspec
    rw [hper, hfit₁, hneed, hgroups, hbytes, hdisk] at hspec
    refine ⟨descs, ?_, fun hfit ha => ?_⟩
    · rw [List.range'_succ, readDescs, readBlock_of_nil hio]
      dsimp only
      rw [hcount, hcopy, hrest]
      subst hcopy
      rfl
    · obtain ⟨hold, hnew⟩ := hspec hfit (by omega)
      rw [Nat.succ_mul] at hold hnew
      refine ⟨fun group hgroup => ?_, fun group hgroup hle i hi => ?_⟩
      · rw [hold group (by omega), ← hcopy]
        exact if_neg (by omega)
      · rcases Nat.lt_or_ge group (a * s.fs.gdPerBlock + s.fs.gdPerBlock) with hlt | hge
        · -- a descriptor of this block
          have hin : a * s.fs.gdPerBlock ≤ group ∧ group < a * s.fs.gdPerBlock + count := by
            rw [← hcount]
            split <;> omega
          have hdiv : group / s.fs.gdPerBlock = a :=
            Nat.div_eq_of_lt_le hle (by rw [Nat.succ_mul]; exact hlt)
          have hmod : group % s.fs.gdPerBlock = group - a * s.fs.gdPerBlock := by
            have hsum := Nat.div_add_mod' group s.fs.gdPerBlock
            rw [hdiv] at hsum
            omega
          rw [hold group hlt, ← hcopy, Ext4Fs.copyDescs, Ext4Fs.diskDesc, hdiv, hmod]
          dsimp only
          rw [if_pos hin]
          exact Bytes.blit_zero hi
        · exact hnew group hgroup hge i hi

/-- The memory of `ext4_mount` after it has copied the superblock. -/
def freshFs (device heap : ℕ → Bytes) : Ext4Fs :=
  { sb := Bytes.blit (fun _ => 0) 0 ext4Superblock.size (device 1)
    blockSize := 0
    blocksPerGroup := 0
    inodesPerGroup := 0
    inodeSize := 0
    groupCount := 0
    descSize := 0
    groupDescs := heap
    device := device }

theorem freshFs_sb (device heap : ℕ → Bytes) {i : ℕ} (hi : i < ext4Superblock.size) :
    (freshFs device heap).sb i = device 1 i := by
  show Bytes.blit (fun _ => 0) 0 ext4Superblock.size (device 1) i = device 1 i
  exact Bytes.blit_zero hi

structure Mountable (fs : Ext4Fs) : Prop where
  magic : fs.super .magic = ext4SuperMagic
  perGroup : fs.parameters.blocksPerGroup ≠ 0
  gdPerBlock : fs.parameters.gdPerBlock ≠ 0

def Grants (kmallocs : List Bool) : Prop :=
  kmallocs.headD true = true ∧ kmallocs.tail.headD true = true ∧
    kmallocs.tail.tail.headD true = true

theorem mount_eq_some_iff {device heap : ℕ → Bytes} {kmallocs : List Bool} {s : Ext4} :
    mount device heap kmallocs [] = some s ↔
      Grants kmallocs ∧ Mountable (freshFs device heap) ∧
        readDescs (List.range (freshFs device heap).parameters.gdBlocksNeeded)
          ⟨(freshFs device heap).parameters, kmallocs.tail.tail.tail, []⟩ = some s := by
  rw [Grants]
  unfold mount kmalloc
  dsimp only
  rw [readBlock_of_nil rfl]
  dsimp only
  change (if (!kmallocs.headD true) = true then none
    else if (freshFs device heap).super .magic ≠ ext4SuperMagic then none
    else if (freshFs device heap).parameters.blocksPerGroup = 0 ∨
      (freshFs device heap).parameters.gdPerBlock = 0 then none
    else if (!kmallocs.tail.headD true) = true then none
    else if (!kmallocs.tail.tail.headD true) = true then none
    else readDescs (List.range (freshFs device heap).parameters.gdBlocksNeeded)
      ⟨(freshFs device heap).parameters, kmallocs.tail.tail.tail, []⟩) = some s ↔ _
  generalize kmallocs.headD true = ok₀
  generalize kmallocs.tail.headD true = ok₁
  generalize kmallocs.tail.tail.headD true = ok₂
  constructor
  · intro h
    split at h
    · cases h
    split at h
    · cases h
    split at h
    · cases h
    split at h
    · cases h
    split at h
    · cases h
    next h₀ hmagic hzero h₁ h₂ =>
    rw [not_or] at hzero
    refine ⟨by simp_all, ⟨not_not.mp hmagic, hzero.1, hzero.2⟩, h⟩
  · rintro ⟨⟨rfl, rfl, rfl⟩, ⟨hmagic, hper, hgd⟩, h⟩
    rw [if_neg (by decide), if_neg (not_not.mpr hmagic), if_neg (not_or.mpr ⟨hper, hgd⟩),
      if_neg (by decide), if_neg (by decide)]
    exact h

/-- What `fs` has in memory was read from `device`. -/
structure MountedOn (device : ℕ → Bytes) (fs : Ext4Fs) : Prop where
  same : fs.device = device
  sb : ∀ i < ext4Superblock.size, fs.sb i = device 1 i
  parameters : fs.parameters = fs
  mountable : Mountable fs
  descs : fs.DescsFit → ∀ group < fs.groupCount, ∀ i < fs.descBytes,
    fs.groupDescs group i = fs.diskDesc device group i

theorem mount_mountedOn {device heap : ℕ → Bytes} {kmallocs : List Bool} {s : Ext4}
    (h : mount device heap kmallocs [] = some s) : MountedOn device s.fs ∧ s.ios = [] := by
  obtain ⟨-, hmount, hread⟩ := mount_eq_some_iff.mp h
  have hpos := Nat.pos_of_ne_zero hmount.gdPerBlock
  generalize hfs : (freshFs device heap).parameters = fs at hread hpos
  obtain ⟨descs, heq, hdescs⟩ := readDescs_eq (s := ⟨fs, kmallocs.tail.tail.tail, []⟩) rfl hpos 0
    fs.gdBlocksNeeded
  rw [List.range_eq_range', heq] at hread
  obtain rfl := Option.some.inj hread
  subst hfs
  refine ⟨⟨rfl, ?_, rfl, ⟨hmount.magic, hmount.perGroup, hmount.gdPerBlock⟩,
    fun hfit group hgroup => ?_⟩, rfl⟩
  · exact fun i hi => freshFs_sb device heap hi
  · exact (hdescs hfit (Nat.zero_add _)).2 group hgroup (by rw [Nat.zero_mul]; exact Nat.zero_le _)

theorem exists_mount {device heap : ℕ → Bytes} {kmallocs : List Bool} (hgrants : Grants kmallocs)
    (hmount : Mountable (freshFs device heap)) :
    ∃ s, mount device heap kmallocs [] = some s := by
  have hpos := Nat.pos_of_ne_zero hmount.gdPerBlock
  obtain ⟨descs, heq, -⟩ := readDescs_eq
    (s := ⟨(freshFs device heap).parameters, kmallocs.tail.tail.tail, []⟩) rfl hpos 0
    (freshFs device heap).parameters.gdBlocksNeeded
  rw [← List.range_eq_range'] at heq
  exact ⟨_, mount_eq_some_iff.mpr ⟨hgrants, hmount, heq⟩⟩

theorem unmount_eq {s : Ext4} (hio : s.ios = []) :
    s.unmount.kmallocs = s.kmallocs.tail ∧ s.unmount.ios = [] ∧
      (∀ c, c ≠ (if s.fs.blockSize = 1024 then 1 else 0) →
        s.unmount.fs.device c = s.fs.device c) ∧
      (s.kmallocs.headD true = false → s.unmount.fs.device = s.fs.device) ∧
      (s.kmallocs.headD true = true → s.fs.blockSize = 1024 → ∀ i < ext4Superblock.size,
        s.unmount.fs.device 1 i = s.fs.sb i) := by
  obtain ⟨fs, kmallocs, ios⟩ := s
  obtain rfl : ios = [] := hio
  unfold unmount syncSuperblock kmalloc
  dsimp only
  split
  · next hfail =>
    refine ⟨rfl, rfl, fun _ _ => rfl, fun _ => rfl, fun hok => ?_⟩
    rw [hok] at hfail
    cases hfail
  · next hok =>
    rw [readBlock_of_nil rfl]
    refine ⟨rfl, rfl, fun c hc => ?_, fun hfail => ?_, fun _ hsize i hi => ?_⟩
    · exact Ext4Fs.device_putBlock_of_ne hc
    · rw [hfail] at hok
      exact absurd rfl hok
    · dsimp only at hsize ⊢
      rw [if_pos hsize, if_pos hsize]
      refine (Ext4Fs.device_putBlock_self ?_).trans ?_
      · rw [hsize]
        exact hi.trans (by decide)
      · exact Bytes.blit_zero hi

end Ext4

namespace Ext4Fs

theorem parameters_congr {fs fs' : Ext4Fs} (h : ∀ f, Parameter f → fs.super f = fs'.super f) :
    fs.parameters.blockSize = fs'.parameters.blockSize ∧
      fs.parameters.blocksPerGroup = fs'.parameters.blocksPerGroup ∧
      fs.parameters.groupCount = fs'.parameters.groupCount ∧
      fs.parameters.descSize = fs'.parameters.descSize ∧
      (Ext4.Mountable fs → Ext4.Mountable fs') := by
  have hfield : ∀ f, (∀ k : BitmapKind, f ≠ k.superFree) → fs.super f = fs'.super f := h
  have hlog := hfield .logBlockSize fun k => by cases k <;> decide
  have hper := hfield .blocksPerGroup fun k => by cases k <;> decide
  have hlo := hfield .blocksCountLo fun k => by cases k <;> decide
  have hhi := hfield .blocksCountHi fun k => by cases k <;> decide
  have hfeature := hfield .featureIncompat fun k => by cases k <;> decide
  have hdesc := hfield .descSize fun k => by cases k <;> decide
  have hmagic := hfield .magic fun k => by cases k <;> decide
  have hbs : fs.parameters.blockSize = fs'.parameters.blockSize := by
    simp only [parameters, hlog]
  have h64 : fs.has64bit ↔ fs'.has64bit := by rw [has64bit, has64bit, hfeature]
  have hds : fs.parameters.descSize = fs'.parameters.descSize := by
    simp only [parameters, h64, hdesc]
  refine ⟨hbs, hper, ?_, hds, fun hmount => ⟨hmagic ▸ hmount.magic, ?_, ?_⟩⟩
  · simp only [parameters, totalBlocks, h64, hlo, hhi, hper]
  · rw [← show fs.parameters.blocksPerGroup = fs'.parameters.blocksPerGroup from hper]
    exact hmount.perGroup
  · rw [gdPerBlock, ← hbs, ← hds]
    exact hmount.gdPerBlock

def ReadByMount (fs : Ext4Fs) (c : ℕ) : Prop :=
  c = 1 ∨ ∃ group < fs.groupCount, c = fs.gdBlock + group / fs.gdPerBlock

/-- No file, bitmap or inode table has a block that a mount reads, and none can get one. -/
structure SystemApart (fs : Ext4Fs) : Prop where
  fit : fs.DescsFit
  outside : ∀ c, fs.ReadByMount c →
    Outside fs.geometry Set.univ (Draft.closed fs.geometry fs.live fs) c

end Ext4Fs

namespace Ext4

/-- What a run from `s₀` keeps: the parameters, and the blocks a mount reads. -/
structure Kept (s₀ s : Ext4) : Prop where
  consistent : s.fs.Consistent
  ios : s.ios = []
  geometry : s.fs.geometry = s₀.fs.geometry
  super : ∀ f, Ext4Fs.Parameter f → s.fs.super f = s₀.fs.super f
  outside : ∀ c, s₀.fs.ReadByMount c →
    Outside s.fs.geometry Set.univ (Draft.closed s.fs.geometry s.fs.live s.fs) c
  device : ∀ c, s₀.fs.ReadByMount c → s.fs.device c = s₀.fs.device c

theorem Kept.call {s₀ s : Ext4} {c : Ext4Call} (h : Kept s₀ s) (hc : s.Gentle c) :
    Kept s₀ (s.call c).2 := by
  obtain ⟨hcons, hios⟩ := call_consistent h.consistent h.ios hc
  obtain ⟨-, I, L, D', hedits, hfs, hs', hL, hI⟩ := call_edits h.consistent h.ios hc
  have hgeo : (s.call c).2.fs.geometry = s.fs.geometry := by rw [← hfs, hs'.geometry]
  have hlive := h.consistent.live_subset hedits hs' hL hI
  have hout (b : ℕ) (hb : s₀.fs.ReadByMount b) :=
    (h.outside b hb).edits h.consistent (Set.subset_univ I) hedits
  refine ⟨hcons, hios, hgeo.trans h.geometry, fun f hf => ?_, fun b hb => ?_, fun b hb => ?_⟩
  · rw [← hfs]
    exact (super_edits hf hedits).trans (h.super f hf)
  · rw [hgeo, ← hfs]
    exact (hout b hb).1.close (hs'.anti hlive)
  · rw [← hfs]
    exact (hout b hb).2.trans (h.device b hb)

theorem Kept.run {s₀ s : Ext4} {cs : List Ext4Call}
    (hrun : Exec (fun s c s' => s.Gentle c ∧ s' = (s.call c).2) s₀ cs s) (h : Kept s₀ s₀) :
    Kept s₀ s := by
  refine hrun.invariant (I := Kept s₀) ?_ h
  rintro s c _ h ⟨hc, rfl⟩
  exact h.call hc

section
variable {device heap : ℕ → Bytes} {s₀ s s' : Ext4}

theorem MountedOn.sameDescs {device' : ℕ → Bytes} {fs fs' : Ext4Fs} (h : MountedOn device fs)
    (h' : MountedOn device' fs') (hfit : fs.DescsFit)
    (hsuper : ∀ f, Ext4Fs.Parameter f → fs.super f = fs'.super f)
    (hdev : ∀ group < fs.groupCount, device (fs.gdBlock + group / fs.gdPerBlock) =
      device' (fs.gdBlock + group / fs.gdPerBlock)) : fs'.SameDescs fs := by
  obtain ⟨hbs, -, hgroups, hds, -⟩ := Ext4Fs.parameters_congr hsuper
  rw [h.parameters, h'.parameters] at hbs hgroups hds
  have hper : fs'.gdPerBlock = fs.gdPerBlock := by
    rw [Ext4Fs.gdPerBlock, Ext4Fs.gdPerBlock, hbs, hds]
  have hblock : fs'.gdBlock = fs.gdBlock := by rw [Ext4Fs.gdBlock, Ext4Fs.gdBlock, hbs]
  have hfit' : fs'.DescsFit := by
    rw [Ext4Fs.DescsFit, ← hgroups, hper]
    exact hfit
  refine ⟨hgroups.symm, hds.symm, fun group hgroup i hi => ?_⟩
  have hgroup' : group < fs.groupCount := hgroups ▸ hgroup
  have hi' : i < fs.descBytes := by
    rw [Ext4Fs.descBytes, hds]
    exact hi
  rw [h'.descs hfit' group hgroup i hi, h.descs hfit group hgroup' i hi', Ext4Fs.diskDesc,
    Ext4Fs.diskDesc, hblock, hper, ← hds, hdev group hgroup']

theorem Kept.unmount_super {i : ℕ} (h : Kept s₀ s) (h₀ : MountedOn device s₀.fs)
    (hi : i < ext4Superblock.size) :
    s.unmount.fs.device 1 i =
      if s.fs.blockSize = 1024 ∧ s.kmallocs.headD true = true then s.fs.sb i else s₀.fs.sb i := by
  obtain ⟨-, -, hother, hfail, hwrite⟩ := unmount_eq h.ios
  have hold : s.fs.device 1 i = s₀.fs.sb i := by
    rw [h.device 1 (.inl rfl), h₀.sb i hi, h₀.same]
  split
  · next hsync => exact hwrite hsync.2 hsync.1 i hi
  · next hsync =>
    rw [not_and_or] at hsync
    rcases hsync with hsize | hnone
    · rw [hother 1 (by rw [if_neg hsize]; decide), hold]
    · rw [hfail (by simpa using hnone), hold]

theorem Kept.unmount_descs {group : ℕ} (h : Kept s₀ s) (hgroup : group < s₀.fs.groupCount) :
    s.unmount.fs.device (s₀.fs.gdBlock + group / s₀.fs.gdPerBlock) =
      s₀.fs.device (s₀.fs.gdBlock + group / s₀.fs.gdPerBlock) := by
  have hsize : s.fs.blockSize = s₀.fs.blockSize := congrArg Geometry.blockSize h.geometry
  rw [(unmount_eq h.ios).2.2.1, h.device _ (.inr ⟨group, hgroup, rfl⟩)]
  rw [hsize, Ext4Fs.gdBlock]
  generalize group / s₀.fs.gdPerBlock = j
  split_ifs <;> omega

theorem Kept.unmount_field {f : SuperField} (h : Kept s₀ s) (h₀ : MountedOn device s₀.fs)
    (hf : Ext4Fs.Parameter f) :
    ext4Superblock.get (s.unmount.fs.device 1) 0 f = s₀.fs.super f := by
  by_cases hsync : s.fs.blockSize = 1024 ∧ s.kmallocs.headD true = true
  · rw [← h.super f hf]
    apply Layout.get_congr
    intro i hi
    rw [Nat.zero_add, h.unmount_super h₀ hi, if_pos hsync]
  · apply Layout.get_congr
    intro i hi
    rw [Nat.zero_add, h.unmount_super h₀ hi, if_neg hsync]

theorem Kept.remount_eq (h : Kept s₀ s) (h₀ : MountedOn device s₀.fs) (hfit : s₀.fs.DescsFit)
    (hremount : s.remount heap = some s') :
    Grants s.kmallocs.tail ∧ s'.fs.SameDescs s₀.fs ∧ ∀ i < ext4Superblock.size, s'.fs.sb i =
      if s.fs.blockSize = 1024 ∧ s.kmallocs.headD true = true then s.fs.sb i else s₀.fs.sb i := by
  obtain ⟨hk, hios, -, -⟩ := unmount_eq h.ios
  rw [remount, hk, hios] at hremount
  obtain ⟨h', -⟩ := mount_mountedOn hremount
  refine ⟨(mount_eq_some_iff.mp hremount).1, h₀.sameDescs h' hfit (fun f hf => ?_) ?_, ?_⟩
  · rw [← h.unmount_field h₀ hf]
    apply Layout.get_congr
    intro i hi
    rw [Nat.zero_add, h'.sb i hi]
  · intro group hgroup
    rw [h.unmount_descs hgroup, h₀.same]
  · intro i hi
    rw [h'.sb i hi, h.unmount_super h₀ hi]

theorem Kept.exists_remount (h : Kept s₀ s) (h₀ : MountedOn device s₀.fs) (heap : ℕ → Bytes)
    (hgrants : Grants s.kmallocs.tail) : ∃ s', s.remount heap = some s' := by
  obtain ⟨hk, hios, -, -⟩ := unmount_eq h.ios
  rw [remount, hk, hios]
  apply exists_mount hgrants
  refine (Ext4Fs.parameters_congr fun f hf => ?_).2.2.2.2 h₀.mountable
  rw [← h.unmount_field h₀ hf]
  apply Layout.get_congr
  intro i hi
  rw [Nat.zero_add, freshFs_sb _ heap hi]

/-- Along every run of gentle calls on a mounted device, an unmount and a new mount give back what
was in memory if and only if there is the memory to mount, the group descriptors are as the last
mount found them, and so is the superblock unless blocks of 1024 bytes let it be written where the
mount reads it. -/
theorem remount_iff {kmallocs : List Bool} {cs : List Ext4Call}
    (hmount : mount device heap kmallocs [] = some s₀) (hs : s₀.fs.Consistent)
    (hsys : s₀.fs.SystemApart)
    (hrun : Exec (fun s c s' => s.Gentle c ∧ s' = (s.call c).2) s₀ cs s) (heap' : ℕ → Bytes) :
    (∃ s', s.remount heap' = some s' ∧ s'.fs.SameSuper s.fs ∧ s'.fs.SameDescs s.fs) ↔
      Grants s.kmallocs.tail ∧ s.fs.SameDescs s₀.fs ∧
        (s.fs.SameSuper s₀.fs ∨ s.fs.blockSize = 1024 ∧ s.kmallocs.headD true = true) := by
  obtain ⟨h₀, hios⟩ := mount_mountedOn hmount
  have hkept : Kept s₀ s :=
    .run hrun ⟨hs, hios, rfl, fun _ _ => rfl, hsys.outside, fun _ _ => rfl⟩
  constructor
  · rintro ⟨s', hremount, hsuper, hdescs⟩
    obtain ⟨hgrants, hdescs₀, hsb⟩ := hkept.remount_eq h₀ hsys.fit hremount
    refine ⟨hgrants, hdescs.symm.trans hdescs₀, ?_⟩
    by_cases hsync : s.fs.blockSize = 1024 ∧ s.kmallocs.headD true = true
    · exact .inr hsync
    · refine .inl fun i hi => ?_
      rw [← hsuper i hi, hsb i hi, if_neg hsync]
  · rintro ⟨hgrants, hdescs, hsuper⟩
    obtain ⟨s', hremount⟩ := hkept.exists_remount h₀ heap' hgrants
    obtain ⟨-, hdescs₀, hsb⟩ := hkept.remount_eq h₀ hsys.fit hremount
    refine ⟨s', hremount, fun i hi => ?_, hdescs₀.trans hdescs.symm⟩
    rw [hsb i hi]
    split
    · rfl
    · next hsync => exact (hsuper.resolve_right hsync i hi).symm

end

theorem mount_single {device heap : ℕ → Bytes} (hmount : Mountable (freshFs device heap))
    (hneed : (freshFs device heap).parameters.gdBlocksNeeded = 1)
    (hgroups : (freshFs device heap).parameters.groupCount = 1) :
    mount device heap [] [] = some ⟨(freshFs device heap).parameters.copyDescs
      (device (freshFs device heap).parameters.gdBlock) 0 1, [], []⟩ := by
  refine mount_eq_some_iff.mpr ⟨⟨rfl, rfl, rfl⟩, hmount, ?_⟩
  rw [hneed, List.range_one, readDescs, readBlock_of_nil rfl]
  dsimp only
  rw [hneed, if_pos rfl, hgroups, Nat.zero_mul]
  rfl

/-- The sample, as a mount with the memory `sampleDesc` for descriptors leaves it. -/
def mountedSample : Ext4 :=
  ⟨(freshFs sampleDevice fun _ => sampleDesc).parameters.copyDescs (sampleDevice 2) 0 1, [], []⟩

theorem mount_sample : mount sampleDevice (fun _ => sampleDesc) [] [] = some mountedSample := by
  have hblock : (freshFs sampleDevice fun _ => sampleDesc).parameters.gdBlock = 2 := by
    decide +kernel
  rw [mountedSample, ← hblock]
  refine mount_single ⟨?_, ?_, ?_⟩ ?_ ?_
  all_goals decide +kernel

theorem mountedSample_geometry : mountedSample.fs.geometry = sampleFs.geometry := by
  have hgroups : mountedSample.fs.groupCount = 1 := by decide +kernel
  have hsize : mountedSample.fs.descSize = 32 := by decide +kernel
  ext group
  iterate 7 decide +kernel
  all_goals
    cases group with
    | zero => decide +kernel
    | succ n =>
      simp only [Ext4Fs.geometry, Ext4Fs.getBlockBitmap, Ext4Fs.getInodeBitmap, Ext4Fs.inodeTable,
        Ext4Fs.desc64, hgroups, hsize]
      rfl

theorem mountedSample_no_block (ino : ℕ) (hino : ino ∈ mountedSample.fs.live) (k : Fin 15) :
    iBlock (mountedSample.fs.geometry.inode mountedSample.fs.device ino) k = 0 := by
  have hvalid := hino.1
  rw [mountedSample_geometry] at hvalid ⊢
  exact sampleFs_no_block hvalid k

theorem mountedSample_consistent : mountedSample.fs.Consistent := by
  refine Ext4Fs.consistent_of_no_block (mountedSample_geometry ▸ sampleFs_sane) ?_
    mountedSample_no_block
  rw [mountedSample_geometry]
  exact fun _ => sampleFs_guarded

theorem mountedSample_systemApart : mountedSample.fs.SystemApart := by
  have hfit : mountedSample.fs.groupCount = 1 ∧ mountedSample.fs.gdPerBlock = 32 ∧
      mountedSample.fs.gdBlock = 2 := by decide +kernel
  obtain ⟨hgroups, hper, hblock⟩ := hfit
  refine ⟨by rw [Ext4Fs.DescsFit, hgroups, hper]; decide, fun c hc => ?_⟩
  have hc : c = 1 ∨ c = 2 := by
    rw [Ext4Fs.ReadByMount, hgroups, hper, hblock] at hc
    rcases hc with rfl | ⟨group, hgroup, rfl⟩
    · exact .inl rfl
    · obtain rfl : group = 0 := Nat.lt_one_iff.mp hgroup
      exact .inr rfl
  refine ⟨fun a ha => ?_, by simp [Draft.closed], fun _ => ?_, fun ino _ k p => ?_⟩
  · rw [mountedSample_geometry] at ha ⊢
    rcases sampleFs_place ha with ⟨-, h⟩ | ⟨-, h⟩ | ⟨j, -, -, h⟩ <;> omega
  · rcases hc with rfl | rfl <;> decide +kernel
  · exact Ext4Fs.not_refs_of_no_block mountedSample_no_block _ p c

/-- The size of inode 2 is changed twice on the device, up to 300 bytes and down to 100. -/
def resizes : List Ext4Call := [.truncate 2 300, .truncate 2 100]

theorem remount_after_resizes :
    ∃ s s', Exec (fun s c s' => s.Gentle c ∧ s' = (s.call c).2) mountedSample resizes s ∧
      mountedSample.sizeOf 2 = 0 ∧ s.sizeOf 2 = 100 ∧
      s.remount (fun _ _ => 0) = some s' ∧ s'.fs.SameSuper s.fs ∧ s'.fs.SameDescs s.fs := by
  have hsize : mountedSample.sizeOf 2 = 0 := by decide +kernel
  have hup : mountedSample.Gentle (.truncate 2 300) := by
    refine ⟨fun _ => by decide +kernel, fun b hb => ?_⟩
    have hlt := hb.1
    rw [hsize] at hlt
    exact absurd hlt (Nat.not_lt_zero _)
  obtain ⟨s₁, hs₁⟩ : ∃ s₁, s₁ = (mountedSample.call (.truncate 2 300)).2 := ⟨_, rfl⟩
  have hdown : s₁.Gentle (.truncate 2 100) := by
    have hlive : 2 ∈ s₁.fs.live ∧ s₁.blocksIn (s₁.sizeOf 2) = 1 ∧ s₁.blocksIn 100 = 1 := by
      rw [hs₁]
      decide +kernel
    obtain ⟨hlive, hold, hnew⟩ := hlive
    refine ⟨fun _ => hlive, fun b ⟨_, hlo, hhi, _⟩ => ?_⟩
    omega
  have hrun : Exec (fun s c s' => s.Gentle c ∧ s' = (s.call c).2) mountedSample resizes _ :=
    .cons ⟨hup, hs₁⟩ (.cons ⟨hdown, rfl⟩ (.nil _))
  obtain ⟨s', h, hsuper, hdescs⟩ := (remount_iff mount_sample mountedSample_consistent
    mountedSample_systemApart hrun fun _ _ => 0).mpr (by
      rw [hs₁]
      exact ⟨⟨by decide +kernel, by decide +kernel, by decide +kernel⟩,
        ⟨by decide +kernel, by decide +kernel, by decide +kernel⟩, .inr (by decide +kernel)⟩)
  refine ⟨_, s', hrun, hsize, ?_, h, hsuper, hdescs⟩
  rw [hs₁]
  decide +kernel

theorem remount_forgets_create :
    mount sampleDevice (fun _ => sampleDesc) [] [] = some mountedSample ∧
      mountedSample.fs.Consistent ∧ mountedSample.fs.SystemApart ∧
      ∃ s', (mountedSample.call (.create 2 nameA 0x8000)).2.remount (fun _ _ => 0) = some s' ∧
        ¬s'.fs.SameDescs (mountedSample.call (.create 2 nameA 0x8000)).2.fs := by
  have hfound : ((mountedSample.call (.create 2 nameA 0x8000)).2.remount fun _ _ => 0).map
      (fun s => (s.fs.groupCount, s.fs.descBytes, s.fs.desc 0 .freeInodesCountLo)) =
        some (1, 32, 14) := by decide +kernel
  have hmemory : (mountedSample.call (.create 2 nameA 0x8000)).2.fs.desc 0 .freeInodesCountLo = 13 := by
    decide +kernel
  obtain ⟨s', h, heq⟩ := Option.map_eq_some_iff.mp hfound
  rw [Prod.mk.injEq, Prod.mk.injEq] at heq
  obtain ⟨hgroups, hbytes, hdesc⟩ := heq
  refine ⟨mount_sample, mountedSample_consistent, mountedSample_systemApart, s', h, fun hdescs => ?_⟩
  have hsame : s'.fs.desc 0 .freeInodesCountLo =
      (mountedSample.call (.create 2 nameA 0x8000)).2.fs.desc 0 .freeInodesCountLo := by
    apply Bytes.load_congr
    intro i hi
    have hi : i < 2 := hi
    apply hdescs.bytes 0 (by rw [hgroups]; decide)
    rw [hbytes]
    show 0 + 14 + i < 32
    omega
  omega

end Ext4

end GcAos.Fs
