import GcAos.Fs.RamfsData

/-! The indices of `inode->data` that `ramfs_read` and `ramfs_write` go through, with the sums and
comparisons as they are in the code: sizes and counts are unsigned and wrap, positions are signed. -/

namespace GcAos.Fs
open Lib Ramfs

def asLoff (n : ℕ) : ℤ := if n < 2 ^ 63 then n else n - 2 ^ 64

def loopIndices (pos count : ℕ) : List ℕ := (List.range count).map fun i => (pos + i) % 2 ^ 64

def ramfsReadIndices (inode : RamfsInode) (count pos : ℕ) : List ℕ :=
  match inode.data with
  | none => []
  | some _ =>
    if asLoff inode.size ≤ pos then []
    else
      let available := (inode.size + (2 ^ 64 - pos)) % 2 ^ 64
      loopIndices pos (if count < available then count else available)

def copiedIndices (inode : RamfsInode) (newSize : ℕ) : List ℕ :=
  if inode.dataCapacity < newSize ∧ inode.data.isSome then List.range inode.size else []

/-- A call of `ramfs_write`: what it returns, the indices it writes, in the new buffer those of the
old data first, and the inode it leaves. -/
structure DataWrite where
  ret : ℤ
  indices : List ℕ
  inode : RamfsInode

def ramfsWriteIndices (s : Ramfs) (inode : RamfsInode) (count pos : ℕ) (junk : Bytes) : DataWrite :=
  let newSize := (pos + count) % 2 ^ 64
  match (ramfsGrow s inode newSize junk).1 with
  | none => ⟨-eNOMEM, [], inode⟩
  | some grown =>
    -- `*pos += count`
    let newPos := (pos + count) % 2 ^ 64
    { ret := asLoff count
      indices := copiedIndices inode newSize ++ loopIndices pos count
      inode := { grown with size := if asLoff inode.size < asLoff newPos then newPos else inode.size } }

/-- The positions that `vfs_lseek` sets, which it returns as well. -/
def Seekable (pos : ℕ) : Prop :=
  ∃ file offset whence file', vfsLseek (some file) offset whence = some ((pos : ℤ), some file') ∧
    file'.fPos = pos

structure DataInBounds (s : Ramfs) (inode : RamfsInode) (count pos : ℕ) (junk : Bytes) : Prop where
  read : ∀ i ∈ ramfsReadIndices inode count pos, i < inode.size
  write : ∀ i ∈ (ramfsWriteIndices s inode count pos junk).indices,
    i < (ramfsWriteIndices s inode count pos junk).inode.dataCapacity
  size_le : (ramfsWriteIndices s inode count pos junk).inode.size ≤
    (ramfsWriteIndices s inode count pos junk).inode.dataCapacity

variable {s : Ramfs} {inode grown : RamfsInode} {junk : Bytes} {file : File} {buf : List UInt8}
variable {pos count cap newSize : ℕ}

theorem ramfsWriteIndices_none (h : (ramfsGrow s inode ((pos + count) % 2 ^ 64) junk).1 = none) :
    ramfsWriteIndices s inode count pos junk = ⟨-eNOMEM, [], inode⟩ := by
  rw [ramfsWriteIndices, h]

theorem ramfsWriteIndices_some (h : (ramfsGrow s inode ((pos + count) % 2 ^ 64) junk).1 = some grown) :
    ramfsWriteIndices s inode count pos junk =
      { ret := asLoff count
        indices := copiedIndices inode ((pos + count) % 2 ^ 64) ++ loopIndices pos count
        inode := { grown with
          size := if asLoff inode.size < asLoff ((pos + count) % 2 ^ 64) then (pos + count) % 2 ^ 64
            else inode.size } } := by
  rw [ramfsWriteIndices, h]

theorem seekable_iff : Seekable pos ↔ pos < 2 ^ 63 := by
  constructor
  · rintro ⟨file, offset, whence, file', h, hpos⟩
    have hseek : ∀ newPos : ℤ, (if 2 ^ 63 ≤ newPos then none
        else if newPos < 0 then some (-eINVAL, some file)
        else some (newPos, some { file with fPos := newPos.toNat })) = some ((pos : ℤ), some file') →
        pos < 2 ^ 63 := by
      intro newPos h
      have herr : ((-eINVAL : ℤ)) < 0 := by decide
      split_ifs at h
      · have := (pair_inj h).1
        omega
      · have := (pair_inj h).1
        omega
    cases whence with
    | seekSet => exact hseek _ h
    | seekCur => exact hseek _ h
    | seekEnd => exact hseek _ h
    | unknown =>
      have herr : ((-eINVAL : ℤ)) < 0 := by decide
      have := (pair_inj h).1
      omega
  · intro h
    let file : File := ⟨⟨0, 0, 0, .ramfsFileOps, 0⟩, .ramfsFileOps, 0, 0, 0, 1, 0⟩
    refine ⟨file, pos, .seekSet, { file with fPos := pos }, ?_, rfl⟩
    unfold vfsLseek
    dsimp only
    rw [if_neg (by omega), if_neg (by omega), Int.toNat_natCast]

theorem loopIndices_lt_iff (hpos : pos < 2 ^ 64) (hcap : cap < 2 ^ 64) :
    (∀ i ∈ loopIndices pos count, i < cap) ↔ count = 0 ∨ pos + count ≤ cap := by
  unfold loopIndices
  simp only [List.mem_map, List.mem_range, forall_exists_index, and_imp, forall_apply_eq_imp_iff₂]
  constructor
  · intro h
    by_contra! hcond
    obtain ⟨hcount, hcap'⟩ := hcond
    by_cases hwrap : pos + count ≤ 2 ^ 64
    · have hlast := h (count - 1) (by omega)
      omega
    · have hlast := h (2 ^ 64 - 1 - pos) (by omega)
      omega
  · rintro (rfl | h) i hi
    · exact absurd hi (Nat.not_lt_zero i)
    · have hlt := Nat.mod_le (pos + i) (2 ^ 64)
      omega

theorem ramfsReadIndices_lt (hpos : pos < 2 ^ 63) (hsize : inode.size < 2 ^ 64) :
    ∀ i ∈ ramfsReadIndices inode count pos, i < inode.size := by
  unfold ramfsReadIndices
  cases inode.data with
  | none => exact fun i hi => absurd hi List.not_mem_nil
  | some _ =>
    dsimp only
    split_ifs with hend hcount
    · exact fun i hi => absurd hi List.not_mem_nil
    all_goals
      unfold asLoff at hend
      have hlt : pos < inode.size := by split_ifs at hend <;> omega
      rw [loopIndices_lt_iff (by omega) hsize]
      omega

theorem copiedIndices_lt (hsize : inode.size ≤ inode.dataCapacity) (hcap : inode.dataCapacity ≤ cap) :
    ∀ i ∈ copiedIndices inode newSize, i < cap := by
  unfold copiedIndices
  split_ifs
  · exact fun i hi => (List.mem_range.mp hi).trans_le (hsize.trans hcap)
  · exact fun i hi => absurd hi List.not_mem_nil

theorem le_alignUp_of_kmallocOf (hnew : newSize < 2 ^ 64)
    (h : (s.kmallocOf (Mm.alignUp newSize ramfsBlockSize)).1 ≠ 0) :
    newSize ≤ Mm.alignUp newSize ramfsBlockSize ∧ Mm.alignUp newSize ramfsBlockSize < 2 ^ 64 := by
  have hmask : 2 ^ 64 - 1 - (ramfsBlockSize - 1) = 2 ^ 64 - 2 ^ 12 := by decide
  have hround : Mm.alignUp newSize ramfsBlockSize = (newSize + 4095) % 2 ^ 64 / 2 ^ 12 * 2 ^ 12 := by
    rw [Mm.alignUp, hmask]
    exact and_high_mask (by decide) (Nat.mod_lt _ (by decide))
  have hne : Mm.alignUp newSize ramfsBlockSize ≠ 0 := by
    intro h0
    rw [h0, kmallocOf, if_pos (.inl rfl)] at h
    exact h rfl
  rw [hround] at hne ⊢
  omega

theorem ramfsGrow_fst (hcap : inode.dataCapacity < 2 ^ 64) (hnew : newSize < 2 ^ 64)
    (h : (ramfsGrow s inode newSize junk).1 = some grown) :
    grown.size = inode.size ∧ newSize ≤ grown.dataCapacity ∧
      inode.dataCapacity ≤ grown.dataCapacity ∧ grown.dataCapacity < 2 ^ 64 := by
  unfold ramfsGrow at h
  split at h
  · next hlt =>
    dsimp only at h
    split at h
    · cases h
    · next hmem =>
      cases h
      have hle := le_alignUp_of_kmallocOf hnew hmem
      exact ⟨rfl, hle.1, hlt.le.trans hle.1, hle.2⟩
  · next hge =>
    cases h
    exact ⟨rfl, Nat.le_of_not_lt hge, le_rfl, hcap⟩

theorem ramfsGrow_eq_none : (ramfsGrow s inode newSize junk).1 = none ↔ NoRoom s inode newSize := by
  rcases hg : ramfsGrow s inode newSize junk with ⟨r, s'⟩
  rcases (ramfsGrow_cases hg).2 with ⟨rfl, hno⟩ | ⟨hroom, data, cap, rfl⟩
  · exact iff_of_true rfl hno
  · exact iff_of_false (by simp) hroom

/-! The models of the contents go through these indices, as long as the sizes are no negative
positions. -/

theorem asLoff_of_lt {n : ℕ} (h : n < 2 ^ 63) : asLoff n = n := if_pos h

theorem ramfsRead_indices {f' : File} {bytes : List UInt8} {r : ℤ}
    (hinode : s.inodes file.privateData = some inode) (hsize : inode.size < 2 ^ 63)
    (h0 : file.privateData ≠ 0) (h : ramfsRead s file count = some (r, bytes, f')) :
    bytes = (ramfsReadIndices inode count file.fPos).map inode.byte := by
  unfold ramfsRead at h
  rw [if_neg h0, hinode] at h
  unfold ramfsReadIndices RamfsInode.byte
  rcases hdata : inode.data with _ | data
  · simp only [hdata, Option.bind_eq_bind, Option.bind_some] at h
    cases h
    rfl
  simp only [hdata, Option.bind_eq_bind, Option.bind_some] at h
  rw [asLoff_of_lt hsize]
  by_cases hend : inode.size ≤ file.fPos
  · rw [if_pos hend] at h
    cases h
    rw [if_pos (by exact_mod_cast hend)]
    rfl
  rw [if_neg hend] at h
  cases h
  rw [if_neg (by exact_mod_cast hend)]
  have havail : (inode.size + (2 ^ 64 - file.fPos)) % 2 ^ 64 = inode.size - file.fPos := by omega
  have hmin : (if count < inode.size - file.fPos then count else inode.size - file.fPos) =
      min count (inode.size - file.fPos) := by
    split_ifs with hlt
    · exact (min_eq_left hlt.le).symm
    · exact (min_eq_right (Nat.le_of_not_lt hlt)).symm
  dsimp only
  rw [havail, hmin, loopIndices, List.map_map]
  refine List.map_congr_left fun i hi => ?_
  have hlt : file.fPos + i < 2 ^ 64 := by
    have hlt := List.mem_range.mp hi
    omega
  rw [Function.comp_apply, Nat.mod_eq_of_lt hlt]
  rfl

theorem ramfsWrite_eq_none (hinode : s.inodes file.privateData = some inode)
    (h0 : file.privateData ≠ 0) (hsize : inode.size ≤ inode.dataCapacity)
    (hcap : inode.dataCapacity < 2 ^ 64) (hpos : file.fPos < 2 ^ 63) :
    ramfsWrite s file buf junk = none ↔
      ∃ i ∈ (ramfsWriteIndices s inode buf.length file.fPos junk).indices,
        (ramfsWriteIndices s inode buf.length file.fPos junk).inode.dataCapacity ≤ i := by
  have hmod : (file.fPos + buf.length) % 2 ^ 64 < 2 ^ 64 := Nat.mod_lt _ (by decide)
  unfold ramfsWrite
  rw [if_neg h0, hinode, Option.bind_eq_bind, Option.bind_some]
  rcases hg : ramfsGrow s inode ((file.fPos + buf.length) % 2 ^ 64) junk with ⟨r, s'⟩
  have hfst : (ramfsGrow s inode ((file.fPos + buf.length) % 2 ^ 64) junk).1 = r := by rw [hg]
  cases r with
  | none =>
    rw [ramfsWriteIndices_none hfst]
    refine iff_of_false (by simp) ?_
    rintro ⟨i, hi, -⟩
    exact List.not_mem_nil hi
  | some grown =>
  obtain ⟨-, -, hold, hgrown⟩ := ramfsGrow_fst hcap hmod hfst
  have hloop := @loopIndices_lt_iff file.fPos buf.length _ (by omega) hgrown
  have hcopied := @copiedIndices_lt inode _ ((file.fPos + buf.length) % 2 ^ 64) hsize hold
  rw [ramfsWriteIndices_some hfst]
  dsimp only
  constructor
  · intro h
    by_contra! hbounds
    have hle := hloop.mp fun i hi => hbounds i (List.mem_append_right _ hi)
    rw [if_neg] at h
    · cases h
    · rintro ⟨hne, hlt⟩
      have := List.length_pos_of_ne_nil hne
      omega
  · rintro ⟨i, hi, hout⟩
    rw [if_pos]
    by_contra hcond
    have hle : buf.length = 0 ∨ file.fPos + buf.length ≤ grown.dataCapacity := by
      rw [List.length_eq_zero_iff]
      by_contra! h
      exact hcond h
    rcases List.mem_append.mp hi with hi | hi
    · exact absurd (hcopied i hi) (Nat.not_lt.mpr hout)
    · exact absurd (hloop.mpr hle i hi) (Nat.not_lt.mpr hout)

theorem ramfsWrite_size {f' : File} {r : ℤ} {s' : Ramfs}
    (hinode : s.inodes file.privateData = some inode) (h0 : file.privateData ≠ 0)
    (hsize : inode.size < 2 ^ 63) (hpos : file.fPos + buf.length < 2 ^ 63)
    (h : ramfsWrite s file buf junk = some (r, f', s')) :
    r = (ramfsWriteIndices s inode buf.length file.fPos junk).ret ∧
      s'.size file.privateData = (ramfsWriteIndices s inode buf.length file.fPos junk).inode.size := by
  have hmod : (file.fPos + buf.length) % 2 ^ 64 = file.fPos + buf.length :=
    Nat.mod_eq_of_lt (by omega)
  have hlen : buf.length < 2 ^ 63 := by omega
  unfold ramfsWrite at h
  rw [if_neg h0, hinode, Option.bind_eq_bind, Option.bind_some] at h
  rcases hg : ramfsGrow s inode ((file.fPos + buf.length) % 2 ^ 64) junk with ⟨r', s₁⟩
  have hfst : (ramfsGrow s inode ((file.fPos + buf.length) % 2 ^ 64) junk).1 = r' := by rw [hg]
  rw [hg] at h
  obtain ⟨hcore, hcases⟩ := ramfsGrow_cases hg
  cases r' with
  | none =>
    rw [ramfsWriteIndices_none hfst]
    cases h
    exact ⟨rfl, (congrFun (size_of_core hcore) _).trans (size_eq hinode)⟩
  | some grown =>
    have hsame : grown.size = inode.size := by
      rcases hcases with ⟨hnone, -⟩ | ⟨-, data, cap, hgrown⟩
      · cases hnone
      · rw [Option.some.inj hgrown]
    rw [ramfsWriteIndices_some hfst]
    dsimp only at h ⊢
    split at h
    · cases h
    · cases h
      rw [Ramfs.size, field_set, Function.update_self, hmod, asLoff_of_lt hlen,
        asLoff_of_lt hpos, asLoff_of_lt hsize, hsame]
      exact ⟨rfl, by simp only [Nat.cast_lt]⟩

/-- The accesses stay in bounds unless the end of the write wraps and the code goes on. -/
theorem ramfs_data_bounds_iff (s : Ramfs) (inode : RamfsInode) (junk : Bytes) (count pos : ℕ)
    (hsize : inode.size ≤ inode.dataCapacity) (hcap : inode.dataCapacity < 2 ^ 64)
    (hpos : Seekable pos) :
    DataInBounds s inode count pos junk ↔
      pos + count < 2 ^ 64 ∨ NoRoom s inode ((pos + count) % 2 ^ 64) := by
  rw [seekable_iff] at hpos
  have hread : ∀ i ∈ ramfsReadIndices inode count pos, i < inode.size :=
    ramfsReadIndices_lt hpos (hsize.trans_lt hcap)
  have hmod : (pos + count) % 2 ^ 64 < 2 ^ 64 := Nat.mod_lt _ (by decide)
  rw [← @ramfsGrow_eq_none s inode junk]
  rcases hg : (ramfsGrow s inode ((pos + count) % 2 ^ 64) junk).1 with _ | grown
  · have hwrite := ramfsWriteIndices_none hg
    refine iff_of_true ⟨hread, ?_, ?_⟩ (.inr rfl)
    · rw [hwrite]
      exact fun i hi => absurd hi List.not_mem_nil
    · rw [hwrite]
      exact hsize
  · obtain ⟨-, hnew, hold, hgrown⟩ := ramfsGrow_fst hcap hmod hg
    have hloop := @loopIndices_lt_iff pos count _ (by omega) hgrown
    have hwrite := ramfsWriteIndices_some hg
    constructor
    · intro h
      refine .inl ?_
      have hbounds := h.write
      rw [hwrite] at hbounds
      have hle := hloop.mp fun i hi => hbounds i (List.mem_append_right _ hi)
      omega
    · rintro (h | h)
      · rw [Nat.mod_eq_of_lt h] at hnew
        refine ⟨hread, ?_, ?_⟩
        · rw [hwrite]
          intro i hi
          rcases List.mem_append.mp hi with hcopy | hi
          · exact copiedIndices_lt hsize hold i hcopy
          · exact hloop.mpr (.inr hnew) i hi
        · rw [hwrite]
          dsimp only
          rw [Nat.mod_eq_of_lt h]
          split_ifs
          · exact hnew
          · exact hsize.trans hold
      · cases h

def fiveBytes : RamfsInode where
  ino := 2
  mode := sIfreg ||| 0o644
  size := 5
  data := some fun _ => 0
  dataCapacity := ramfsBlockSize
  name := [97]

theorem ramfs_data_bounds_append :
    DataInBounds ⟨fun _ => none, 0, 0, 0, []⟩ fiveBytes 3 5 fun _ => 0 :=
  (ramfs_data_bounds_iff _ fiveBytes _ 3 5 (by decide) (by decide) (seekable_iff.mpr (by decide))).mpr
    (.inl (by decide))

/-- The end of the write is 0, which needs no larger buffer, and its first byte goes to the last
position. -/
theorem ramfs_write_wraps : Seekable (2 ^ 63 - 1) ∧ fiveBytes.size ≤ fiveBytes.dataCapacity ∧
    ¬DataInBounds ⟨fun _ => none, 0, 0, 0, []⟩ fiveBytes (2 ^ 63 + 1) (2 ^ 63 - 1) fun _ => 0 := by
  refine ⟨seekable_iff.mpr (by decide), by decide, fun h => ?_⟩
  have hgrow : (ramfsGrow ⟨fun _ => none, 0, 0, 0, []⟩ fiveBytes ((2 ^ 63 - 1 + (2 ^ 63 + 1)) % 2 ^ 64)
      fun _ => 0).1 = some fiveBytes := by
    rw [ramfsGrow, if_neg (by decide)]
  have hbounds := h.write
  rw [ramfsWriteIndices_some hgrow] at hbounds
  have hfirst : 2 ^ 63 - 1 ∈ loopIndices (2 ^ 63 - 1) (2 ^ 63 + 1) :=
    List.mem_map.mpr ⟨0, List.mem_range.mpr (by decide), by decide⟩
  exact absurd (hbounds _ (List.mem_append_right _ hfirst)) (by decide)

end GcAos.Fs
