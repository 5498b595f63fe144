import GcAos.Fs.Ext4Mount
import GcAos.Mm.Kmalloc

/-! `ext4_mount`, `ext4_read_inode` and `ext4_write_inode` with the operations that can go wrong in C:
divisions, a shift, the writes to the descriptors and the accesses to the buffer of a block. -/

namespace GcAos.Fs
open Lib Ext4 Draft Mm

inductive Ext4Fault
  | divideByZero
  -- a shift of a 32-bit value by 32 or more
  | shift
  | outOfBounds
  deriving DecidableEq

namespace Ext4Fs

def gdSize (fs : Ext4Fs) : ℕ := fs.groupCount * fs.descSize % 2 ^ 32

def gdInBlock (fs : Ext4Fs) (b : ℕ) : ℕ :=
  if b = fs.gdBlocksNeeded - 1 then fs.groupCount - b * fs.gdPerBlock else fs.gdPerBlock

/-- The descriptors of block `b` are copied into the buffer. -/
def DescsInside (fs : Ext4Fs) (b : ℕ) : Prop :=
  ∀ g < fs.gdInBlock b, (b * fs.gdPerBlock + g) % 2 ^ 32 * ext4GroupDesc.size + fs.descBytes ≤ fs.gdSize

instance (fs : Ext4Fs) (b : ℕ) : Decidable (fs.DescsInside b) :=
  inferInstanceAs (Decidable (∀ g < _, _ ≤ _))

/-- The fields of the descriptor that lead to an inode are read in the buffer of the descriptors. -/
def FieldsInside (fs : Ext4Fs) (group : ℕ) : Prop :=
  group * ext4GroupDesc.size + ext4GroupDesc.off (if 64 ≤ fs.descSize then .inodeTableHi else .inodeTableLo) + 4 ≤
    fs.gdSize

instance (fs : Ext4Fs) (group : ℕ) : Decidable (fs.FieldsInside group) :=
  inferInstanceAs (Decidable (_ ≤ _))

def InodeInside (fs : Ext4Fs) (ino : ℕ) : Prop := fs.inodeOffset ino + ext4Inode.size ≤ fs.blockSize

instance (fs : Ext4Fs) (ino : ℕ) : Decidable (fs.InodeInside ino) :=
  inferInstanceAs (Decidable (_ ≤ _))

end Ext4Fs

/-- The sizes `kmalloc` does not refuse. -/
def Allocatable (size : ℕ) : Prop := size ≠ 0 ∧ size ≤ maxAlloc

instance (size : ℕ) : Decidable (Allocatable size) := inferInstanceAs (Decidable (_ ∧ _))

namespace Ext4

/-- `kmalloc` of `size` bytes, with the outcome from the state where it does not refuse. -/
def kmallocSized (s : Ext4) (size : ℕ) : Bool × Ext4 :=
  (s.kmalloc.1 && decide (Allocatable size), s.kmalloc.2)

/-- The loop of `ext4_mount` over the blocks of descriptors. -/
def readDescsChecked : List ℕ → Ext4 → Except Ext4Fault (Option Ext4)
  | [], s => .ok (some s)
  | b :: bs, s =>
    let (buf?, s) := s.readBlock (s.fs.gdBlock + b)
    match buf? with
    | none => .ok none
    | some buf =>
      if s.fs.DescsInside b then
        readDescsChecked bs
          { s with fs := s.fs.copyDescs buf (b * s.fs.gdPerBlock) (s.fs.gdInBlock b) }
      else .error .outOfBounds

/-- `ext4_mount`; `none` when it returns -1. -/
def mountChecked (device heap : ℕ → Bytes) (kmallocs ios : List Bool) :
    Except Ext4Fault (Option Ext4) :=
  let fs : Ext4Fs :=
    { sb := fun _ => 0
      blockSize := 0
      blocksPerGroup := 0
      inodesPerGroup := 0
      inodeSize := 0
      groupCount := 0
      descSize := 0
      groupDescs := heap
      device := device }
  let (ok, s) := kmalloc ⟨fs, kmallocs, ios⟩
  if !ok then .ok none
  else
    let (buf?, s) := s.readBlock 1
    match buf? with
    | none => .ok none
    | some buf =>
      let fs := { s.fs with sb := s.fs.sb.blit 0 ext4Superblock.size buf }
      if fs.super .magic ≠ ext4SuperMagic then .ok none
      else if 32 ≤ fs.super .logBlockSize then .error .shift
      else if fs.super .blocksPerGroup = 0 then .error .divideByZero
      else
        let s : Ext4 := { s with fs := fs.parameters }
        let (ok, s) := s.kmallocSized s.fs.gdSize
        if !ok then .ok none
        else
          let (ok, s) := s.kmallocSized s.fs.blockSize
          if !ok then .ok none
          else if s.fs.descSize = 0 ∨ s.fs.gdPerBlock = 0 then .error .divideByZero
          else readDescsChecked (List.range s.fs.gdBlocksNeeded) s

/-- What `ext4_read_inode` and `ext4_write_inode` share: the descriptor is read and the block with the inode,
and the bytes of the inode in it are accessed. -/
def accessInode {α : Type} (s : Ext4) (ino : ℕ) (failure : α) (access : Bytes → Ext4 → α × Ext4) :
    Except Ext4Fault (α × Ext4) :=
  if ino = 0 then .ok (failure, s)
  else if s.fs.inodesPerGroup = 0 then .error .divideByZero
  else if s.fs.groupCount ≤ (ino - 1) / s.fs.inodesPerGroup then .ok (failure, s)
  else if ¬s.fs.FieldsInside ((ino - 1) / s.fs.inodesPerGroup) then .error .outOfBounds
  else if s.fs.blockSize = 0 then .error .divideByZero
  else
    let (ok, s) := s.kmallocSized s.fs.blockSize
    if !ok then .ok (failure, s)
    else
      let (buf?, s) := s.readBlock (s.fs.inodeBlock ino)
      match buf? with
      | none => .ok (failure, s)
      | some buf => if s.fs.InodeInside ino then .ok (access buf s) else .error .outOfBounds

def readInodeChecked (s : Ext4) (ino : ℕ) : Except Ext4Fault (Option Bytes × Ext4) :=
  s.accessInode ino none fun buf s => (some fun i => buf (s.fs.inodeOffset ino + i), s)

def writeInodeChecked (s : Ext4) (ino : ℕ) (inode : Bytes) : Except Ext4Fault (ℤ × Ext4) :=
  s.accessInode ino (-1) fun buf s =>
    s.writeBlockRaw (s.fs.inodeBlock ino) (buf.blit (s.fs.inodeOffset ino) ext4Inode.size inode)

/-- Whatever memory and the device do, no mount of the device faults, and in the file system of one
that succeeds no access to an inode does. -/
structure MountsSafely (device : ℕ → Bytes) : Prop where
  mount : ∀ heap kmallocs ios, ∃ r, mountChecked device heap kmallocs ios = .ok r
  inodes : ∀ heap kmallocs ios s, mountChecked device heap kmallocs ios = .ok (some s) →
    ∀ ino < 2 ^ 32, ∀ kmallocs ios,
      (∃ r, readInodeChecked ⟨s.fs, kmallocs, ios⟩ ino = .ok r) ∧
        ∀ inode, ∃ r, writeInodeChecked ⟨s.fs, kmallocs, ios⟩ ino inode = .ok r

end Ext4

structure Ext4Fs.FitsMemory (fs : Ext4Fs) : Prop where
  desc_le : fs.descSize ≤ fs.blockSize
  -- or the rounding up of the number of descriptor blocks wraps, and none is read
  descs : 2 ^ 32 < fs.groupCount + fs.gdPerBlock ∨
    (fs.groupCount - 1) * ext4GroupDesc.size + min fs.descSize ext4GroupDesc.size ≤ fs.gdSize
  inodesPerGroup : fs.inodesPerGroup ≠ 0
  inodes : ∀ ino < 2 ^ 32, ino ≠ 0 → (ino - 1) / fs.inodesPerGroup < fs.groupCount →
    fs.FieldsInside ((ino - 1) / fs.inodesPerGroup) ∧
      (ino - 1) % fs.inodesPerGroup * fs.inodeSize % 2 ^ 32 % fs.blockSize + ext4Inode.size ≤ fs.blockSize

namespace Ext4

variable {s s' : Ext4} {fs : Ext4Fs}

theorem readDescsChecked_ok {bs : List ℕ} (h : ∀ b ∈ bs, s.fs.DescsInside b) :
    ∃ r, readDescsChecked bs s = .ok r ∧
      ∀ s', r = some s' → ∃ descs, s'.fs = { s.fs with groupDescs := descs } := by
  induction bs generalizing s with
  | nil =>
    refine ⟨some s, rfl, ?_⟩
    rintro s' ⟨⟩
    exact ⟨s.fs.groupDescs, rfl⟩
  | cons b bs ih =>
    unfold readDescsChecked
    rcases hread : s.readBlock (s.fs.gdBlock + b) with ⟨buf?, s₁⟩
    obtain ⟨hfs, -, -, -⟩ := readBlock_eq hread
    dsimp only
    cases buf? with
    | none => exact ⟨none, rfl, fun _ hnone => by cases hnone⟩
    | some buf =>
      dsimp only
      rw [hfs, if_pos (h b (List.mem_cons_self ..))]
      exact ih (s := { s₁ with fs := s.fs.copyDescs buf (b * s.fs.gdPerBlock) (s.fs.gdInBlock b) })
        fun b' hb' => h b' (List.mem_cons_of_mem _ hb')

theorem descsInside_of_ok {bs : List ℕ} {r : Option Ext4} (hio : s.ios = [])
    (h : readDescsChecked bs s = .ok r) :
    (∀ b ∈ bs, s.fs.DescsInside b) ∧ ∃ s', r = some s' := by
  induction bs generalizing s with
  | nil => exact ⟨fun b hb => absurd hb List.not_mem_nil, s, (Except.ok.inj h).symm⟩
  | cons b bs ih =>
    rw [readDescsChecked, readBlock_of_nil hio] at h
    dsimp only at h
    split at h
    · next hin =>
      obtain ⟨hrest, hsome⟩ := ih (s := { s with
        fs := s.fs.copyDescs _ (b * s.fs.gdPerBlock) (s.fs.gdInBlock b) }) hio h
      exact ⟨List.forall_mem_cons.mpr ⟨hin, hrest⟩, hsome⟩
    · cases h

theorem descsInside_iff (hper : fs.gdPerBlock ≠ 0) (hgroups : fs.groupCount ≠ 0)
    (hlt : fs.groupCount < 2 ^ 32) :
    (∀ b ∈ List.range fs.gdBlocksNeeded, fs.DescsInside b) ↔
      2 ^ 32 < fs.groupCount + fs.gdPerBlock ∨
        (fs.groupCount - 1) * ext4GroupDesc.size + min fs.descSize ext4GroupDesc.size ≤ fs.gdSize := by
  have hpos := Nat.pos_of_ne_zero hper
  rcases Nat.lt_or_ge (2 ^ 32) (fs.groupCount + fs.gdPerBlock) with hwrap | hfit
  · have hnone : fs.gdBlocksNeeded = 0 := by
      refine Nat.div_eq_of_lt ?_
      omega
    rw [hnone, List.range_zero]
    exact iff_of_true (fun b hb => absurd hb List.not_mem_nil) (.inl hwrap)
  · have hneed : fs.gdBlocksNeeded = (fs.groupCount + fs.gdPerBlock - 1) / fs.gdPerBlock := by
      rw [Ext4Fs.gdBlocksNeeded, Nat.mod_eq_of_lt (by omega)]
    have hle := Nat.div_mul_le_self (fs.groupCount + fs.gdPerBlock - 1) fs.gdPerBlock
    have hgt := Nat.lt_div_mul_add hpos (a := fs.groupCount + fs.gdPerBlock - 1)
    rw [← hneed] at hle hgt
    rw [or_iff_right (not_lt.mpr hfit)]
    obtain ⟨m, hm⟩ : ∃ m, fs.gdBlocksNeeded = m + 1 := by
      refine Nat.exists_eq_succ_of_ne_zero fun h0 => ?_
      rw [h0] at hgt
      omega
    rw [hm, Nat.succ_mul] at hle hgt
    have hlast : fs.gdInBlock m = fs.groupCount - m * fs.gdPerBlock := by
      rw [Ext4Fs.gdInBlock, if_pos (by omega)]
    constructor
    · intro h
      have hin := h m (List.mem_range.mpr (by omega)) (fs.groupCount - 1 - m * fs.gdPerBlock)
        (by omega)
      rw [Nat.add_sub_cancel' (by omega), Nat.mod_eq_of_lt (by omega)] at hin
      exact hin
    · intro h b hb g hg
      have hb := List.mem_range.mp hb
      have hb : b ≤ m := by omega
      have hgroup : b * fs.gdPerBlock + g ≤ fs.groupCount - 1 := by
        rcases hb.eq_or_lt with rfl | hlt'
        · omega
        · have hrows : (b + 1) * fs.gdPerBlock ≤ m * fs.gdPerBlock := Nat.mul_le_mul_right _ hlt'
          have hg' : g < fs.gdPerBlock := by
            rwa [Ext4Fs.gdInBlock, if_neg (by omega)] at hg
          rw [Nat.succ_mul] at hrows
          omega
      rw [Nat.mod_eq_of_lt (by omega)]
      exact (Nat.add_le_add_right (Nat.mul_le_mul_right _ hgroup) _).trans h

section
variable {α : Type} {ino : ℕ} {failure : α} {access : Bytes → Ext4 → α × Ext4}

theorem accessInode_ok (h : ino ≠ 0 → s.fs.inodesPerGroup ≠ 0 ∧
    ((ino - 1) / s.fs.inodesPerGroup < s.fs.groupCount →
      s.fs.FieldsInside ((ino - 1) / s.fs.inodesPerGroup) ∧ s.fs.InodeInside ino)) :
    ∃ r, s.accessInode ino failure access = .ok r := by
  unfold accessInode
  split
  · exact ⟨_, rfl⟩
  next hino =>
  obtain ⟨hper, hin⟩ := h hino
  rw [if_neg hper]
  split
  · exact ⟨_, rfl⟩
  next hgroup =>
  obtain ⟨hdesc, hin⟩ := hin (not_le.mp hgroup)
  rw [if_neg (not_not.mpr hdesc)]
  have hbs : s.fs.blockSize ≠ 0 := by
    rw [Ext4Fs.InodeInside] at hin
    exact (Nat.lt_of_lt_of_le (Nat.lt_add_left _ (by decide)) hin).ne'
  rw [if_neg hbs]
  rcases hkm : s.kmallocSized s.fs.blockSize with ⟨ok, s₁⟩
  obtain rfl : s.kmalloc.2 = s₁ := congrArg Prod.snd hkm
  dsimp only
  split
  · exact ⟨_, rfl⟩
  rcases hread : s.kmalloc.2.readBlock (s.kmalloc.2.fs.inodeBlock ino) with ⟨buf?, s₂⟩
  obtain ⟨hfs, -, -, -⟩ := readBlock_eq hread
  cases buf? with
  | none => exact ⟨_, rfl⟩
  | some buf =>
    dsimp only
    rw [hfs]
    exact ⟨_, if_pos hin⟩

theorem inside_of_accessInode {r : α × Ext4} (halloc : Allocatable fs.blockSize)
    (h : accessInode ⟨fs, [], []⟩ ino failure access = .ok r) (hino : ino ≠ 0) :
    fs.inodesPerGroup ≠ 0 ∧ ((ino - 1) / fs.inodesPerGroup < fs.groupCount →
      fs.FieldsInside ((ino - 1) / fs.inodesPerGroup) ∧ fs.InodeInside ino) := by
  unfold accessInode at h
  rw [if_neg hino] at h
  dsimp only at h
  split at h
  · cases h
  next hper =>
  refine ⟨hper, fun hgroup => ?_⟩
  have hkm : kmallocSized ⟨fs, [], []⟩ fs.blockSize = (true, ⟨fs, [], []⟩) :=
    Prod.ext (decide_eq_true halloc) rfl
  rw [if_neg (not_le.mpr hgroup)] at h
  split at h
  · cases h
  next hdesc =>
  rw [if_neg halloc.1, hkm] at h
  dsimp only at h
  rw [if_neg (by decide), readBlock_of_nil rfl] at h
  dsimp only at h
  split at h
  · next hin => exact ⟨not_not.mp hdesc, hin⟩
  · cases h

end

/-- A read or a write of an inode that does not fault is the one of the driver. -/
theorem accessInode_eq {α : Type} {ino : ℕ} {failure : α} {access : Bytes → Ext4 → α × Ext4}
    {r : α × Ext4} (halloc : Allocatable s.fs.blockSize)
    (h : s.accessInode ino failure access = .ok r) :
    (if ino = 0 then (failure, s)
      else if s.fs.groupCount ≤ (ino - 1) / s.fs.inodesPerGroup then (failure, s)
      else if !s.kmalloc.1 then (failure, s.kmalloc.2)
      else match (s.kmalloc.2.readBlock (s.fs.inodeBlock ino)).1 with
        | none => (failure, (s.kmalloc.2.readBlock (s.fs.inodeBlock ino)).2)
        | some buf => access buf (s.kmalloc.2.readBlock (s.fs.inodeBlock ino)).2) = r := by
  unfold accessInode at h
  split at h
  · next hino =>
    rw [if_pos hino]
    exact Except.ok.inj h
  next hino =>
  rw [if_neg hino]
  split at h
  · cases h
  split at h
  · next hgroup =>
    rw [if_pos hgroup]
    exact Except.ok.inj h
  next hgroup =>
  rw [if_neg hgroup]
  split at h
  · cases h
  split at h
  · cases h
  have hkm : s.kmallocSized s.fs.blockSize = s.kmalloc :=
    Prod.ext (by rw [kmallocSized, decide_eq_true halloc, Bool.and_true]) rfl
  rw [hkm] at h
  dsimp only at h
  split at h
  · next hok =>
    rw [if_pos hok]
    exact Except.ok.inj h
  next hok =>
  rw [if_neg hok]
  rcases hread : s.kmalloc.2.readBlock (s.fs.inodeBlock ino) with ⟨buf?, s₂⟩
  have hread' : s.kmalloc.2.readBlock (s.kmalloc.2.fs.inodeBlock ino) = (buf?, s₂) := hread
  rw [hread'] at h
  cases buf? with
  | none => exact Except.ok.inj h
  | some buf =>
    dsimp only at h
    split at h
    · exact Except.ok.inj h
    · cases h

theorem readInode_of_checked {ino : ℕ} {r : Option Bytes × Ext4} (halloc : Allocatable s.fs.blockSize)
    (h : s.readInodeChecked ino = .ok r) : s.readInode ino = r := by
  rw [← accessInode_eq halloc h, readInode]
  refine if_congr Iff.rfl rfl (if_congr Iff.rfl rfl (if_congr Iff.rfl rfl ?_))
  rcases hread : s.kmalloc.2.readBlock (s.fs.inodeBlock ino) with ⟨_ | buf, s₂⟩
  all_goals
    dsimp only [kmalloc] at hread ⊢
    simp only [hread, Option.map_none, Option.map_some]

theorem writeInode_of_checked {ino : ℕ} {inode : Bytes} {r : ℤ × Ext4}
    (halloc : Allocatable s.fs.blockSize) (h : s.writeInodeChecked ino inode = .ok r) :
    s.writeInode ino inode = r := by
  rw [← accessInode_eq halloc h, writeInode]
  refine if_congr Iff.rfl rfl (if_congr Iff.rfl rfl (if_congr Iff.rfl rfl ?_))
  rcases hread : s.kmalloc.2.readBlock (s.fs.inodeBlock ino) with ⟨_ | buf, s₂⟩
  all_goals
    dsimp only [kmalloc] at hread ⊢
    simp only [hread]

theorem readDescs_of_checked {bs : List ℕ} {r : Option Ext4} (h : readDescsChecked bs s = .ok r) :
    readDescs bs s = r := by
  induction bs generalizing s with
  | nil => exact Except.ok.inj h
  | cons b bs ih =>
    unfold readDescsChecked at h
    unfold readDescs
    rcases hread : s.readBlock (s.fs.gdBlock + b) with ⟨buf?, s₁⟩
    rw [hread] at h
    cases buf? with
    | none => exact Except.ok.inj h
    | some buf =>
      dsimp only at h ⊢
      split at h
      · exact ih h
      · cases h

theorem mountChecked_eq (device heap : ℕ → Bytes) (kmallocs ios : List Bool) :
    mountChecked device heap kmallocs ios =
      if !kmallocs.headD true then .ok none
      else if !ios.headD true then .ok none
      else if (freshFs device heap).super .magic ≠ ext4SuperMagic then .ok none
      else if 32 ≤ (freshFs device heap).super .logBlockSize then .error .shift
      else if (freshFs device heap).super .blocksPerGroup = 0 then .error .divideByZero
      else if !(kmallocs.tail.headD true &&
        decide (Allocatable (freshFs device heap).parameters.gdSize)) then .ok none
      else if !(kmallocs.tail.tail.headD true &&
        decide (Allocatable (freshFs device heap).parameters.blockSize)) then .ok none
      else if (freshFs device heap).parameters.descSize = 0 ∨
        (freshFs device heap).parameters.gdPerBlock = 0 then .error .divideByZero
      else readDescsChecked (List.range (freshFs device heap).parameters.gdBlocksNeeded)
        ⟨(freshFs device heap).parameters, kmallocs.tail.tail.tail, ios.tail⟩ := by
  unfold mountChecked readBlock io
  cases hio : ios.headD true with
  | false =>
    dsimp only [kmalloc]
    rw [hio]
    rfl
  | true =>
    dsimp only [kmalloc]
    rw [hio]
    rfl

/-- A mount that does not fault is the one of the driver, where `kmalloc` refuses sizes. -/
theorem mount_of_checked {device heap : ℕ → Bytes} {kmallocs ios : List Bool} {r : Option Ext4}
    (h : mountChecked device heap kmallocs ios = .ok r) :
    mount device heap (kmallocs.headD true ::
      (kmallocs.tail.headD true && decide (Allocatable (freshFs device heap).parameters.gdSize)) ::
      (kmallocs.tail.tail.headD true &&
        decide (Allocatable (freshFs device heap).parameters.blockSize)) ::
      kmallocs.tail.tail.tail) ios = r := by
  rw [mountChecked_eq] at h
  unfold mount readBlock io
  dsimp only [kmalloc]
  rw [List.headD_cons, List.tail_cons]
  split at h
  · next hk =>
    rw [if_pos hk]
    exact Except.ok.inj h
  next hk =>
  rw [if_neg hk]
  split at h
  · next hio =>
    rw [Bool.not_eq_true'] at hio
    rw [hio]
    exact Except.ok.inj h
  next hio =>
  rw [Bool.not_eq_true', Bool.not_eq_false] at hio
  rw [hio]
  change (if (freshFs device heap).super .magic ≠ ext4SuperMagic then none
    else if (freshFs device heap).super .blocksPerGroup = 0 ∨
      (freshFs device heap).parameters.gdPerBlock = 0 then none
    else if !(kmallocs.tail.headD true &&
      decide (Allocatable (freshFs device heap).parameters.gdSize)) then none
    else if !(kmallocs.tail.tail.headD true &&
      decide (Allocatable (freshFs device heap).parameters.blockSize)) then none
    else readDescs (List.range (freshFs device heap).parameters.gdBlocksNeeded)
      ⟨(freshFs device heap).parameters, kmallocs.tail.tail.tail, ios.tail⟩) = r
  split at h
  · next hmagic =>
    rw [if_pos hmagic]
    exact Except.ok.inj h
  next hmagic =>
  rw [if_neg hmagic]
  split at h
  · cases h
  split at h
  · cases h
  next hper =>
  rw [if_congr (or_iff_right hper) rfl rfl]
  split at h
  · next hk₁ =>
    rw [if_pos hk₁, ite_self]
    exact Except.ok.inj h
  next hk₁ =>
  rw [if_neg hk₁]
  split at h
  · next hk₂ =>
    rw [if_pos hk₂, ite_self]
    exact Except.ok.inj h
  next hk₂ =>
  rw [if_neg hk₂]
  split at h
  · cases h
  next hdiv =>
  rw [if_neg (not_or.mp hdiv).2]
  exact readDescs_of_checked h

theorem ne_zero_of_allocatable (h : Allocatable fs.gdSize) : fs.descSize ≠ 0 ∧ fs.groupCount ≠ 0 := by
  refine ⟨fun h0 => h.1 ?_, fun h0 => h.1 ?_⟩
  · rw [Ext4Fs.gdSize, h0, Nat.mul_zero, Nat.zero_mod]
  · rw [Ext4Fs.gdSize, h0, Nat.zero_mul, Nat.zero_mod]

section
variable {device : ℕ → Bytes}

theorem groupCount_parameters_lt (fs : Ext4Fs) : fs.parameters.groupCount < 2 ^ 32 :=
  Nat.mod_lt _ (Nat.two_pow_pos 32)

theorem mountChecked_ok (heap : ℕ → Bytes) (kmallocs ios : List Bool)
    (hshift : (freshFs device heap).super .logBlockSize < 32)
    (hper : (freshFs device heap).super .blocksPerGroup ≠ 0)
    (hfits : Allocatable (freshFs device heap).parameters.gdSize →
      Allocatable (freshFs device heap).parameters.blockSize →
        (freshFs device heap).parameters.FitsMemory) :
    ∃ r, mountChecked device heap kmallocs ios = .ok r ∧ ∀ s, r = some s →
      (freshFs device heap).parameters.FitsMemory ∧
        ∃ descs, s.fs = { (freshFs device heap).parameters with groupDescs := descs } := by
  have hnone : ∃ r, (.ok none : Except Ext4Fault (Option Ext4)) = .ok r ∧ ∀ s, r = some s →
      (freshFs device heap).parameters.FitsMemory ∧
        ∃ descs, s.fs = { (freshFs device heap).parameters with groupDescs := descs } :=
    ⟨none, rfl, fun _ h => by cases h⟩
  rw [mountChecked_eq, if_neg (not_le.mpr hshift), if_neg hper]
  split
  · exact hnone
  split
  · exact hnone
  split
  · exact hnone
  split
  · exact hnone
  next hdescs =>
  split
  · exact hnone
  next hblock =>
  have hdescs : Allocatable (freshFs device heap).parameters.gdSize := by
    simp only [Bool.not_eq_true', Bool.not_eq_false, Bool.and_eq_true, decide_eq_true_eq] at hdescs
    exact hdescs.2
  have hblock : Allocatable (freshFs device heap).parameters.blockSize := by
    simp only [Bool.not_eq_true', Bool.not_eq_false, Bool.and_eq_true, decide_eq_true_eq] at hblock
    exact hblock.2
  have hfits := hfits hdescs hblock
  obtain ⟨hsize, hgroups⟩ := ne_zero_of_allocatable hdescs
  have hpos : (freshFs device heap).parameters.gdPerBlock ≠ 0 :=
    (Nat.div_pos hfits.desc_le (Nat.pos_of_ne_zero hsize)).ne'
  rw [if_neg (not_or.mpr ⟨hsize, hpos⟩)]
  obtain ⟨r, hr, hsome⟩ := readDescsChecked_ok
    (s := ⟨(freshFs device heap).parameters, kmallocs.tail.tail.tail, ios.tail⟩)
    ((descsInside_iff hpos hgroups (groupCount_parameters_lt _)).mpr hfits.descs)
  exact ⟨r, hr, fun s hs => ⟨hfits, hsome s hs⟩⟩

theorem of_mountChecked_ok {heap : ℕ → Bytes} {r : Option Ext4}
    (hmagic : (freshFs device heap).super .magic = ext4SuperMagic)
    (h : mountChecked device heap [] [] = .ok r) :
    (freshFs device heap).super .logBlockSize < 32 ∧
      (freshFs device heap).super .blocksPerGroup ≠ 0 ∧
      (Allocatable (freshFs device heap).parameters.gdSize →
        Allocatable (freshFs device heap).parameters.blockSize →
          (freshFs device heap).parameters.gdPerBlock ≠ 0 ∧
          (∀ b ∈ List.range (freshFs device heap).parameters.gdBlocksNeeded,
            (freshFs device heap).parameters.DescsInside b) ∧
          ∃ s descs, r = some s ∧
            s.fs = { (freshFs device heap).parameters with groupDescs := descs }) := by
  rw [mountChecked_eq, if_neg (by decide), if_neg (by decide), if_neg (not_not.mpr hmagic)] at h
  split at h
  · cases h
  next hshift =>
  split at h
  · cases h
  next hper =>
  refine ⟨not_le.mp hshift, hper, fun hdescs hblock => ?_⟩
  rw [decide_eq_true hdescs, decide_eq_true hblock, if_neg (by decide), if_neg (by decide)] at h
  split at h
  · cases h
  next hdiv =>
  obtain ⟨hin, s, rfl⟩ := descsInside_of_ok rfl h
  obtain ⟨r', hr', hsome⟩ := readDescsChecked_ok hin
  rw [h] at hr'
  obtain ⟨descs, hfs⟩ := hsome s (Except.ok.inj hr').symm
  exact ⟨fun h0 => hdiv (.inr h0), hin, s, descs, rfl, hfs⟩

theorem fitsMemory_heap {heap : ℕ → Bytes} (heap' : ℕ → Bytes)
    (h : (freshFs device heap).parameters.FitsMemory) :
    (freshFs device heap').parameters.FitsMemory :=
  ⟨h.desc_le, h.descs, h.inodesPerGroup, h.inodes⟩

/-- A superblock with the right magic number is safe to mount exactly if the shift and the division
of the mount are defined and, where `kmalloc` does not refuse the sizes, the parameters fit. -/
theorem mount_safe_iff (heap : ℕ → Bytes)
    (hmagic : (freshFs device heap).super .magic = ext4SuperMagic) :
    MountsSafely device ↔
      (freshFs device heap).super .logBlockSize < 32 ∧
      (freshFs device heap).super .blocksPerGroup ≠ 0 ∧
      (Allocatable (freshFs device heap).parameters.gdSize →
        Allocatable (freshFs device heap).parameters.blockSize →
          (freshFs device heap).parameters.FitsMemory) := by
  constructor
  · intro h
    obtain ⟨r, hr⟩ := h.mount heap [] []
    obtain ⟨hshift, hper, hmount⟩ := of_mountChecked_ok hmagic hr
    refine ⟨hshift, hper, fun hdescs hblock => ?_⟩
    obtain ⟨hpos, hin, s, descs, rfl, hfs⟩ := hmount hdescs hblock
    obtain ⟨hsize, hgroups⟩ := ne_zero_of_allocatable hdescs
    have hblock' : Allocatable s.fs.blockSize := by
      rw [hfs]
      exact hblock
    have hinside (ino : ℕ) (hino : ino < 2 ^ 32) (hne : ino ≠ 0) : s.fs.inodesPerGroup ≠ 0 ∧
        ((ino - 1) / s.fs.inodesPerGroup < s.fs.groupCount →
          s.fs.FieldsInside ((ino - 1) / s.fs.inodesPerGroup) ∧ s.fs.InodeInside ino) := by
      obtain ⟨⟨r, hread⟩, -⟩ := h.inodes heap [] [] s hr ino hino [] []
      exact inside_of_accessInode hblock' hread hne
    rw [hfs] at hinside
    refine ⟨?_, ?_, (hinside 1 (by decide) (by decide)).1, fun ino hino hne =>
      (hinside ino hino hne).2⟩
    · exact Nat.le_of_not_lt fun hlt => hpos (Nat.div_eq_of_lt hlt)
    · exact (descsInside_iff hpos hgroups (groupCount_parameters_lt _)).mp hin
  · rintro ⟨hshift, hper, hfits⟩
    refine ⟨fun heap' kmallocs ios => ?_, fun heap' kmallocs ios s hs ino hino kmallocs' ios' => ?_⟩
    · obtain ⟨r, hr, -⟩ := mountChecked_ok heap' kmallocs ios hshift hper
        fun hdescs hblock => fitsMemory_heap heap' (hfits hdescs hblock)
      exact ⟨r, hr⟩
    · obtain ⟨r, hr, hsome⟩ := mountChecked_ok heap' kmallocs ios hshift hper
        fun hdescs hblock => fitsMemory_heap heap' (hfits hdescs hblock)
      rw [hs] at hr
      obtain ⟨hfits, descs, hfs⟩ := hsome s (Except.ok.inj hr).symm
      have hinside : ino ≠ 0 → s.fs.inodesPerGroup ≠ 0 ∧
          ((ino - 1) / s.fs.inodesPerGroup < s.fs.groupCount →
            s.fs.FieldsInside ((ino - 1) / s.fs.inodesPerGroup) ∧ s.fs.InodeInside ino) := by
        rw [hfs]
        exact fun hne => ⟨hfits.inodesPerGroup, hfits.inodes ino hino hne⟩
      exact ⟨accessInode_ok hinside, fun inode => accessInode_ok hinside⟩

end

theorem mount_safe_sample : MountsSafely sampleDevice := by
  have hmagic : (freshFs sampleDevice fun _ _ => 0).super .magic = ext4SuperMagic := by decide +kernel
  have hfields : (freshFs sampleDevice fun _ _ => 0).parameters.inodesPerGroup = 16 ∧
      (freshFs sampleDevice fun _ _ => 0).parameters.inodeSize = 128 ∧
      (freshFs sampleDevice fun _ _ => 0).parameters.blockSize = 1024 ∧
      (freshFs sampleDevice fun _ _ => 0).parameters.groupCount = 1 := by decide +kernel
  obtain ⟨hper, hsize, hblock, hgroups⟩ := hfields
  refine (mount_safe_iff (fun _ _ => 0) hmagic).mpr ⟨by decide +kernel, by decide +kernel, fun _ _ => ?_⟩
  refine ⟨by decide +kernel, by decide +kernel, by decide +kernel, fun ino hino hne hgroup => ?_⟩
  have hinode : ext4Inode.size = 116 := rfl
  have hfields : (freshFs sampleDevice fun _ _ => 0).parameters.FieldsInside 0 := by decide +kernel
  rw [hper, hsize, hblock, hinode]
  rw [hper, hgroups, Nat.lt_one_iff] at hgroup
  exact ⟨hgroup ▸ hfields, by omega⟩

def twoGroupsDevice : ℕ → Bytes
  | 1 => ext4Superblock.set sampleSuper 0 .blocksCountLo 128
  | b => sampleDevice b

theorem mount_writes_outside :
    (freshFs twoGroupsDevice fun _ _ => 0).super .magic = ext4SuperMagic ∧
      ¬MountsSafely twoGroupsDevice := by
  refine ⟨by decide +kernel, fun h => ?_⟩
  have hfault : (mountChecked twoGroupsDevice (fun _ _ => 0) [] []).isOk = false := by decide +kernel
  obtain ⟨r, hr⟩ := h.mount (fun _ _ => 0) [] []
  rw [hr] at hfault
  cases hfault

end Ext4

end GcAos.Fs
