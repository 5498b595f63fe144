import GcAos.Lib.WriteLog
import GcAos.Fs.VfsFile

/-! What a file of the RAM file system contains, over runs of reads, writes and seeks with any
number of open files on it. -/

namespace GcAos.Fs
open Lib Ramfs

/-- The buffer of the file. There is none before the first write. -/
def RamfsInode.byte (inode : RamfsInode) (i : ℕ) : UInt8 := inode.data.elim 0 fun data => data i

/-- What `ramfs_write` finds between the end of the file and `pos`: where it needs a larger buffer,
whatever the new memory holds. -/
def RamfsInode.gap (inode : RamfsInode) (newSize : ℕ) (junk : Bytes) (i : ℕ) : UInt8 :=
  if inode.dataCapacity < newSize then junk i else inode.byte i

/-- The inode with a buffer for `newSize` bytes. -/
def RamfsInode.grow (inode : RamfsInode) (newSize : ℕ) (junk : Bytes) : RamfsInode :=
  if inode.dataCapacity < newSize then
    { inode with
      data := some ((inode.data.map (junk.blit 0 inode.size)).getD junk)
      dataCapacity := Mm.alignUp newSize ramfsBlockSize }
  else inode

structure RamfsInode.Buffered (inode : RamfsInode) : Prop where
  size_le : inode.size ≤ inode.dataCapacity
  null : inode.data = none → inode.dataCapacity = 0

variable {s s' : Ramfs} {inode : RamfsInode} {f : File} {buf : List UInt8} {junk : Bytes}
variable {newSize a i : ℕ}

theorem le_alignUp (h : newSize < 2 ^ 63) : newSize ≤ Mm.alignUp newSize ramfsBlockSize := by
  have hmask : 2 ^ 64 - 1 - (ramfsBlockSize - 1) = 2 ^ 64 - 2 ^ 12 := by decide
  have hlt : newSize + ramfsBlockSize - 1 < 2 ^ 64 := by
    unfold ramfsBlockSize
    omega
  rw [Mm.alignUp, hmask, Nat.mod_eq_of_lt hlt, and_high_mask (by decide) hlt]
  unfold ramfsBlockSize
  omega

namespace RamfsInode

theorem grow_size : (inode.grow newSize junk).size = inode.size := by
  unfold grow
  split
  · rfl
  · rfl

theorem le_grow_capacity (inode : RamfsInode) (junk : Bytes) (h : newSize < 2 ^ 63) :
    newSize ≤ (inode.grow newSize junk).dataCapacity := by
  unfold grow
  split
  · exact le_alignUp h
  · next hcap => exact Nat.le_of_not_lt hcap

theorem capacity_le_grow (h : newSize < 2 ^ 63) :
    inode.dataCapacity ≤ (inode.grow newSize junk).dataCapacity := by
  unfold grow
  split
  · next hcap => exact hcap.le.trans (le_alignUp h)
  · rfl

theorem grow_byte_of_lt (h : inode.Buffered) (hi : i < inode.size) :
    (inode.grow newSize junk).byte i = inode.byte i := by
  unfold grow
  split
  · unfold byte
    cases hdata : inode.data with
    | none =>
      have hcap := h.null hdata
      have hle := h.size_le
      omega
    | some data => exact Bytes.blit_zero hi
  · rfl

theorem grow_byte_of_le (hi : inode.size ≤ i) :
    (inode.grow newSize junk).byte i = inode.gap newSize junk i := by
  unfold grow gap
  split
  · unfold byte
    cases inode.data with
    | none => rfl
    | some data => exact Bytes.blit_of_le (by omega)
  · rfl

theorem grow_null (h : inode.Buffered) (hdata : (inode.grow newSize junk).data = none) :
    inode.dataCapacity = 0 ∧ newSize = 0 := by
  unfold grow at hdata
  split at hdata
  · exact absurd hdata (by simp)
  · next hcap =>
    have h0 := h.null hdata
    omega

/-- The inode after a write of `buf` at `pos`. -/
def write (inode : RamfsInode) (pos : ℕ) (buf : List UInt8) (junk : Bytes) : RamfsInode :=
  { inode.grow (pos + buf.length) junk with
    data := (inode.grow (pos + buf.length) junk).data.map fun data =>
      data.blit pos buf.length (bytesOf buf)
    size := max inode.size (pos + buf.length) }

variable {pos : ℕ}

theorem Buffered.write (h : inode.Buffered) (hpos : pos + buf.length < 2 ^ 63) :
    (inode.write pos buf junk).Buffered where
  size_le := max_le (h.size_le.trans (capacity_le_grow hpos)) (le_grow_capacity _ _ hpos)
  null hdata := by
    have hnone : (inode.grow (pos + buf.length) junk).data = none := Option.map_eq_none_iff.mp hdata
    obtain ⟨hcap, hnew⟩ := grow_null h hnone
    show (inode.grow (pos + buf.length) junk).dataCapacity = 0
    rw [hnew, grow, if_neg (Nat.not_lt_zero _), hcap]

theorem write_byte_of_mem (h : inode.Buffered) (hi : pos ≤ i ∧ i < pos + buf.length) :
    (inode.write pos buf junk).byte i = buf.getD (i - pos) 0 := by
  unfold write byte
  cases hdata : (inode.grow (pos + buf.length) junk).data with
  | none =>
    obtain ⟨-, hnew⟩ := grow_null h hdata
    omega
  | some data => exact if_pos hi

theorem write_byte_of_notMem (hi : ¬(pos ≤ i ∧ i < pos + buf.length)) :
    (inode.write pos buf junk).byte i = (inode.grow (pos + buf.length) junk).byte i := by
  unfold write byte
  cases (inode.grow (pos + buf.length) junk).data with
  | none => rfl
  | some data => exact if_neg hi

end RamfsInode

theorem ramfsGrow_eq (junk : Bytes) (hroom : ¬NoRoom s inode newSize) :
    ∃ s₁ : Ramfs, s₁.core = s.core ∧
      ramfsGrow s inode newSize junk = (some (inode.grow newSize junk), s₁) := by
  unfold ramfsGrow RamfsInode.grow
  by_cases hcap : inode.dataCapacity < newSize
  · rw [if_pos hcap, if_pos hcap]
    refine ⟨_, kmallocOf_core s (Mm.alignUp newSize ramfsBlockSize), ?_⟩
    dsimp only
    rw [if_neg fun h0 => hroom ⟨hcap, h0⟩]
  · rw [if_neg hcap, if_neg hcap]
    exact ⟨s, rfl, rfl⟩

theorem vfsRead_ramfs (hop : f.fOp = .ramfsFileOps) (count : ℕ) :
    vfsRead s (some f) true count = (ramfsRead s f count).map fun r => (r.1, r.2.1, some r.2.2) := by
  obtain ⟨dentry, op, pos, flags, mode, refs, data⟩ := f
  obtain rfl : op = .ramfsFileOps := hop
  cases h : ramfsRead s ⟨dentry, .ramfsFileOps, pos, flags, mode, refs, data⟩ count with
  | none => simp only [vfsRead, h]; rfl
  | some r => simp only [vfsRead, h]; rfl

theorem vfsWrite_ramfs (hop : f.fOp = .ramfsFileOps) : vfsWrite s (some f) (some buf) junk =
    (ramfsWrite s f buf junk).map fun r => (r.1, some r.2.1, r.2.2) := by
  obtain ⟨dentry, op, pos, flags, mode, refs, data⟩ := f
  obtain rfl : op = .ramfsFileOps := hop
  cases h : ramfsWrite s ⟨dentry, .ramfsFileOps, pos, flags, mode, refs, data⟩ buf junk with
  | none => simp only [vfsWrite, h]; rfl
  | some r => simp only [vfsWrite, h]; rfl

theorem vfsWrite_eq (junk : Bytes) (ha : f.privateData ≠ 0) (hop : f.fOp = .ramfsFileOps)
    (hi : s.inodes f.privateData = some inode) (hpos : f.fPos + buf.length < 2 ^ 63)
    (hroom : ¬NoRoom s inode (f.fPos + buf.length)) :
    ∃ s' : Ramfs,
      s'.inodes = Function.update s.inodes f.privateData (some (inode.write f.fPos buf junk)) ∧
      vfsWrite s (some f) (some buf) junk =
        some ((buf.length : ℤ), some { f with fPos := f.fPos + buf.length }, s') := by
  have hmod : (f.fPos + buf.length) % 2 ^ 64 = f.fPos + buf.length := Nat.mod_eq_of_lt (by omega)
  obtain ⟨s₁, hcore, hgrow⟩ := ramfsGrow_eq junk hroom
  have hcap := inode.le_grow_capacity junk hpos
  have hmax : (if inode.size < f.fPos + buf.length then f.fPos + buf.length else inode.size) =
      max inode.size (f.fPos + buf.length) := by
    split
    · next hlt => exact (max_eq_right hlt.le).symm
    · next hge => exact (max_eq_left (Nat.le_of_not_lt hge)).symm
  refine ⟨s₁.set f.privateData (inode.write f.fPos buf junk), ?_, ?_⟩
  · show Function.update s₁.inodes _ _ = _
    rw [inodes_of_core hcore]
  have hwrite : ramfsWrite s f buf junk = some ((buf.length : ℤ),
      { f with fPos := f.fPos + buf.length }, s₁.set f.privateData (inode.write f.fPos buf junk)) := by
    unfold ramfsWrite
    rw [if_neg ha, hi]
    dsimp only [Option.bind_eq_bind, Option.bind_some]
    rw [hmod, hgrow]
    dsimp only
    rw [if_neg (by omega), RamfsInode.grow_size, hmax]
    rfl
  rw [vfsWrite_ramfs hop, hwrite]
  rfl

theorem vfsRead_eq (ha : f.privateData ≠ 0) (hop : f.fOp = .ramfsFileOps)
    (hi : s.inodes f.privateData = some inode) (h : inode.Buffered) (count : ℕ) :
    vfsRead s (some f) true count = some
      (((min count (inode.size - f.fPos) : ℕ) : ℤ),
        (List.range (min count (inode.size - f.fPos))).map fun i => inode.byte (f.fPos + i),
        some { f with fPos := f.fPos + min count (inode.size - f.fPos) }) := by
  rw [vfsRead_ramfs hop, ramfsRead, if_neg ha, hi]
  dsimp only [Option.bind_eq_bind, Option.bind_some]
  unfold RamfsInode.byte
  cases hdata : inode.data with
  | none =>
    have hcap := h.null hdata
    have hsize := h.size_le
    have h0 : min count (inode.size - f.fPos) = 0 := by omega
    rw [h0]
    rfl
  | some data =>
    by_cases hend : inode.size ≤ f.fPos
    · rw [Nat.sub_eq_zero_of_le hend, Nat.min_zero]
      dsimp only
      rw [if_pos hend]
      rfl
    · dsimp only
      rw [if_neg hend]
      rfl

/-! Runs with one file. -/

structure FileLog where
  vfs : Vfs
  log : WriteLog

/-- An open file on the ramfs file at `a`. -/
def File.On (f : File) (a : ℕ) : Prop := f.privateData = a ∧ f.fOp = .ramfsFileOps

/-- Reads, writes and seeks with the files on the ramfs file at `a`. -/
def FileCall.On (v : Vfs) (a : ℕ) : FileCall → Prop
  | .read k _ _ => ∃ f, v.files k = some f ∧ f.On a
  | .write k _ _ => ∃ f, v.files k = some f ∧ f.On a
  | .lseek k _ _ => ∃ f, v.files k = some f ∧ f.On a
  | _ => False

def Vfs.wrote (v : Vfs) : FileCall → WriteLog
  | .write k (some buf) _ => (v.files k).toList.map fun f => (f.fPos, buf)
  | _ => []

/-- A write of the call meets `P`, a property of the file, the inode, the bytes and the new memory. -/
def FileCall.Writes (v : Vfs) (P : File → RamfsInode → List UInt8 → Bytes → Prop)
    (c : FileCall) : Prop :=
  ∀ k buf junk f inode, c = .write k (some buf) junk → v.files k = some f →
    v.fs.inodes f.privateData = some inode → P f inode buf junk

/-- A call with a file on the ramfs file at `a`. A write ends below `2^63`, and there is memory for
it. -/
structure ContentStep (a : ℕ) (l : FileLog) (x : FileCall × List ℕ) (l' : FileLog) : Prop where
  on : x.1.On l.vfs a
  run : (l.vfs.withMem x.2).run x.1 = some l'.vfs
  writes : x.1.Writes (l.vfs.withMem x.2) fun f inode buf _ =>
    f.fPos + buf.length < 2 ^ 63 ∧ ¬NoRoom (l.vfs.withMem x.2).fs inode (f.fPos + buf.length)
  log : l'.log = l.vfs.wrote x.1 ++ l.log

/-- A write leaves no byte that was not written below its end: it starts at the end of the file or
before, or it is not empty and what it finds from the end of the file on is zero. -/
def NoGap (f : File) (inode : RamfsInode) (buf : List UInt8) (junk : Bytes) : Prop :=
  (buf = [] → f.fPos ≤ inode.size) ∧
    ∀ i, inode.size ≤ i → i < f.fPos → inode.gap (f.fPos + buf.length) junk i = 0

/-- The file reads as the writes say, from any position of any open file, and it has the size that
they say. Reads and writes move the position on by what they return. -/
structure FileLog.Contents (a : ℕ) (l : FileLog) : Prop where
  size : l.vfs.fs.size a = l.log.size
  read : ∀ k f, l.vfs.files k = some f → f.On a → ∀ pos count,
    vfsRead l.vfs.fs (some { f with fPos := pos }) true count =
      some (((l.log.read pos count).length : ℤ), l.log.read pos count,
        some { f with fPos := pos + (l.log.read pos count).length })
  write : ∀ k f inode, l.vfs.files k = some f → f.On a → l.vfs.fs.inodes a = some inode →
    ∀ mem buf junk, f.fPos + buf.length < 2 ^ 63 →
      ¬NoRoom (l.vfs.withMem mem).fs inode (f.fPos + buf.length) →
      ∃ s', vfsWrite (l.vfs.withMem mem).fs (some f) (some buf) junk =
        some ((buf.length : ℤ), some { f with fPos := f.fPos + buf.length }, s')

structure RamfsInode.Empty (inode : RamfsInode) : Prop where
  size : inode.size = 0
  data : inode.data = none
  capacity : inode.dataCapacity = 0

structure RamfsInode.Holds (inode : RamfsInode) (log : WriteLog) : Prop where
  size : inode.size = log.size
  byte : ∀ i < inode.size, inode.byte i = log.byteAt i

theorem RamfsInode.Empty.holds (h : inode.Empty) : inode.Buffered ∧ inode.Holds [] := by
  refine ⟨⟨?_, fun _ => h.capacity⟩, ⟨h.size, ?_⟩⟩
  · rw [h.size]
    exact Nat.zero_le _
  · intro i hi
    rw [h.size] at hi
    exact absurd hi (Nat.not_lt_zero i)

theorem RamfsInode.Holds.write_iff {log : WriteLog} (hb : inode.Buffered) (h : inode.Holds log) :
    (inode.write f.fPos buf junk).Holds ((f.fPos, buf) :: log) ↔ NoGap f inode buf junk := by
  have hsize : (inode.write f.fPos buf junk).size = max inode.size (f.fPos + buf.length) := rfl
  constructor
  · intro hw
    constructor
    · rintro rfl
      have hmax := hsize.symm.trans hw.size
      rw [WriteLog.size_cons_nil, ← h.size] at hmax
      exact max_eq_left_iff.mp hmax
    · intro i hge hlt
      have hout : ¬(f.fPos ≤ i ∧ i < f.fPos + buf.length) := by omega
      have hbyte := hw.byte i (by omega)
      rw [write_byte_of_notMem hout, grow_byte_of_le hge, WriteLog.byteAt_cons] at hbyte
      rw [hbyte, Bytes.blit_of_lt hlt]
      exact WriteLog.byteAt_of_size_le (h.size ▸ hge)
  · rintro ⟨hempty, hzero⟩
    constructor
    · by_cases hbuf : buf = []
      · rw [hsize, hbuf, WriteLog.size_cons_nil, ← h.size]
        exact max_eq_left (hempty hbuf)
      · rw [hsize, WriteLog.size_cons hbuf, h.size, max_comm]
    · intro i hi
      rw [WriteLog.byteAt_cons]
      by_cases hin : f.fPos ≤ i ∧ i < f.fPos + buf.length
      · rw [write_byte_of_mem hb hin, Bytes.blit, if_pos hin]
      · rw [write_byte_of_notMem hin, Bytes.blit, if_neg hin]
        by_cases hlt : i < inode.size
        · rw [grow_byte_of_lt hb hlt]
          exact h.byte i hlt
        · have hge : inode.size ≤ i := Nat.le_of_not_lt hlt
          rw [grow_byte_of_le hge, hzero i hge (by omega)]
          exact (WriteLog.byteAt_of_size_le (h.size ▸ hge)).symm

/-- The log says what is behind the inode at `a`. -/
def FileLog.Inv (a : ℕ) (l : FileLog) : Prop :=
  ∃ inode, l.vfs.fs.inodes a = some inode ∧ inode.Buffered ∧ inode.Holds l.log

variable {l l' : FileLog} {x : FileCall × List ℕ} {v v' : Vfs}

theorem RamfsInode.Holds.read_eq {log : WriteLog} (h : inode.Holds log) (pos count : ℕ) :
    (List.range (min count (inode.size - pos))).map (fun i => inode.byte (pos + i)) =
      log.read pos count := by
  rw [WriteLog.read, ← h.size]
  apply List.map_congr_left
  intro i hi
  exact h.byte _ (by have := List.mem_range.mp hi; omega)

theorem FileLog.Inv.contents (ha : a ≠ 0) (h : l.Inv a) : l.Contents a := by
  obtain ⟨inode, hi, hb, hh⟩ := h
  refine ⟨(size_eq hi).trans hh.size, ?_, ?_⟩
  · rintro k f hf ⟨rfl, hop⟩ pos count
    rw [vfsRead_eq (f := { f with fPos := pos }) ha hop hi hb count, ← hh.read_eq, List.length_map,
      List.length_range]
  · rintro k f inode' hf ⟨rfl, hop⟩ hi' mem buf junk hpos hroom
    obtain ⟨s', -, hwrite⟩ := vfsWrite_eq (s := (l.vfs.withMem mem).fs) junk ha hop hi' hpos hroom
    exact ⟨s', hwrite⟩

theorem FileLog.Contents.holds {k : ℕ} (h : l.Contents f.privateData)
    (ha : f.privateData ≠ 0) (hf : l.vfs.files k = some f) (hop : f.fOp = .ramfsFileOps)
    (hi : l.vfs.fs.inodes f.privateData = some inode) (hb : inode.Buffered) :
    inode.Holds l.log := by
  have hsize : inode.size = l.log.size := (size_eq hi).symm.trans h.size
  refine ⟨hsize, ?_⟩
  intro i hlt
  have hread := h.read k f hf ⟨rfl, hop⟩ i 1
  have hread' := vfsRead_eq (f := { f with fPos := i }) ha hop hi hb 1
  rw [hread] at hread'
  have hbytes := (Prod.mk.inj (pair_inj hread').2).1
  have hone : min 1 (inode.size - i) = 1 := by omega
  rw [WriteLog.read, ← hsize] at hbytes
  dsimp only at hbytes
  rw [hone] at hbytes
  exact (List.cons.inj hbytes).1.symm

theorem run_inodes {c : FileCall} (hon : c.On v a) (hno : ∀ k buf junk, c ≠ .write k (some buf) junk)
    (h : v.run c = some v') : v'.fs.inodes = v.fs.inodes ∧ v.wrote c = [] := by
  cases c with
  | call d k => exact hon.elim
  | close k => exact hon.elim
  | read k buf count =>
    obtain ⟨r, -, hv⟩ := Option.bind_eq_some_iff.mp h
    obtain rfl := Option.some.inj hv
    exact ⟨rfl, rfl⟩
  | lseek k offset whence =>
    obtain ⟨r, -, hv⟩ := Option.bind_eq_some_iff.mp h
    obtain rfl := Option.some.inj hv
    exact ⟨rfl, rfl⟩
  | write k buf junk =>
    cases buf with
    | some buf => exact absurd rfl (hno k buf junk)
    | none =>
      obtain ⟨f, hf, -⟩ := hon
      obtain ⟨r, hwrite, hv⟩ := Option.bind_eq_some_iff.mp h
      rw [hf] at hwrite
      obtain rfl := Option.some.inj hwrite
      obtain rfl := Option.some.inj hv
      exact ⟨rfl, rfl⟩

/-- After a call the log still says what the file contains, exactly if no gap was left. -/
theorem ContentStep.contents_iff (ha : a ≠ 0) (hl : l.Inv a) (h : ContentStep a l x l') :
    (l'.Contents a ↔ x.1.Writes l.vfs NoGap) ∧ (x.1.Writes l.vfs NoGap → l'.Inv a) := by
  obtain ⟨c, mem⟩ := x
  obtain ⟨v', log'⟩ := l'
  obtain ⟨inode, hi, hb, hh⟩ := hl
  obtain ⟨hon, hrun, hwrites, hlog⟩ := h
  obtain rfl : log' = _ := hlog
  by_cases hno : ∀ k buf junk, c ≠ .write k (some buf) junk
  · obtain ⟨hinodes, hwrote⟩ := run_inodes (v := l.vfs.withMem mem) (a := a) hon hno hrun
    have hinv : FileLog.Inv a ⟨v', l.vfs.wrote c ++ l.log⟩ := by
      refine ⟨inode, ?_, hb, ?_⟩
      · exact (congrFun hinodes a).trans hi
      · show inode.Holds (l.vfs.wrote c ++ l.log)
        rw [show l.vfs.wrote c = [] from hwrote]
        exact hh
    exact ⟨iff_of_true (hinv.contents ha) fun k buf junk _ _ hc => absurd hc (hno k buf junk),
      fun _ => hinv⟩
  obtain ⟨k, buf, junk, rfl⟩ : ∃ k buf junk, c = .write k (some buf) junk := by
    simpa only [ne_eq, not_forall, not_not] using hno
  obtain ⟨f, hf, rfl, hop⟩ := hon
  obtain ⟨hpos, hroom⟩ := hwrites k buf junk f inode rfl hf hi
  obtain ⟨s', hs', hwrite⟩ := vfsWrite_eq (s := (l.vfs.withMem mem).fs) junk ha hop hi hpos hroom
  obtain ⟨r, hr, hv⟩ := Option.bind_eq_some_iff.mp hrun
  rw [show (l.vfs.withMem mem).files k = some f from hf, hwrite] at hr
  obtain rfl := Option.some.inj hr
  obtain rfl := Option.some.inj hv
  have hlog : l.vfs.wrote (.write k (some buf) junk) ++ l.log = (f.fPos, buf) :: l.log := by
    rw [Vfs.wrote, hf]
    rfl
  have hi' : s'.inodes f.privateData = some (inode.write f.fPos buf junk) := by
    rw [hs', Function.update_self]
  have hgap : FileCall.Writes l.vfs NoGap (.write k (some buf) junk) ↔ NoGap f inode buf junk := by
    constructor
    · intro h
      exact h k buf junk f inode rfl hf hi
    · intro h k' buf' junk' f' inode' hc hf' hin
      obtain ⟨rfl, hbuf, rfl⟩ := FileCall.write.inj hc
      obtain rfl := Option.some.inj hbuf
      obtain rfl := Option.some.inj (hf.symm.trans hf')
      obtain rfl := Option.some.inj (hi.symm.trans hin)
      exact h
  rw [hgap]
  dsimp only
  rw [hlog]
  have hinv : NoGap f inode buf junk →
      FileLog.Inv f.privateData ⟨{ (l.vfs.withMem mem).setFile k
        (some { f with fPos := f.fPos + buf.length }) with fs := s' }, (f.fPos, buf) :: l.log⟩ :=
    fun h => ⟨_, hi', hb.write hpos, (hh.write_iff hb).mpr h⟩
  refine ⟨⟨fun hc => (hh.write_iff hb).mp ?_, fun h => (hinv h).contents ha⟩, hinv⟩
  exact hc.holds (k := k) (f := { f with fPos := f.fPos + buf.length }) ha (Function.update_self ..) hop hi'
    (hb.write hpos)

/-- Runs from a new file: the contents are right after every call exactly if no write leaves a
gap. -/
theorem ramfs_contents (ha : a ≠ 0) (hi : v.fs.inodes a = some inode) (hempty : inode.Empty)
    (calls : List (FileCall × List ℕ)) (l : FileLog) :
    FileLog.Contents a ⟨v, []⟩ ∧
      (Exec (fun l x l' => ContentStep a l x l' ∧ l'.Contents a) ⟨v, []⟩ calls l ↔
        Exec (fun l x l' => ContentStep a l x l' ∧ x.1.Writes l.vfs NoGap) ⟨v, []⟩ calls l) := by
  have hstart : FileLog.Inv a ⟨v, []⟩ := ⟨inode, hi, hempty.holds⟩
  refine ⟨hstart.contents ha, ?_⟩
  generalize (⟨v, []⟩ : FileLog) = l₀ at hstart
  constructor
  · intro h
    induction h with
    | nil => exact .nil _
    | cons hst _ ih =>
      obtain ⟨hcontents, hinv⟩ := hst.1.contents_iff ha hstart
      have hgap := hcontents.mp hst.2
      exact .cons ⟨hst.1, hgap⟩ (ih (hinv hgap))
  · intro h
    induction h with
    | nil => exact .nil _
    | cons hst _ ih =>
      obtain ⟨hcontents, hinv⟩ := hst.1.contents_iff ha hstart
      exact .cons ⟨hst.1, hcontents.mpr hst.2⟩ (ih (hinv hst.2))

def twoFiles : Vfs where
  fs := {
    inodes := fun b => if b = 0x2000 then some { ino := 2, mode := sIfreg, name := [0x66] } else none
    root := 0x1000
    nextIno := 3
    inodeCount := 2
    kmalloc := [] }
  files := fun h =>
    if 2 ≤ h then none
    else some {
      fDentry := ⟨2, sIfreg, 0, .ramfsFileOps, 0x2000⟩
      fOp := .ramfsFileOps
      fPos := h
      fFlags := 0
      fMode := 0
      fCount := 1
      privateData := 0x2000 }

def Vfs.next (v : Vfs) (c : FileCall) (mem : List ℕ) : Vfs := ((v.withMem mem).run c).getD v

theorem contentStep_next {c : FileCall} {mem : List ℕ} (log : WriteLog) (hon : c.On v a)
    (hrun : ((v.withMem mem).run c).isSome = true)
    (hwrites : c.Writes (v.withMem mem) fun f inode buf _ =>
      f.fPos + buf.length < 2 ^ 63 ∧ ¬NoRoom (v.withMem mem).fs inode (f.fPos + buf.length)) :
    ContentStep a ⟨v, log⟩ (c, mem) ⟨v.next c mem, v.wrote c ++ log⟩ := by
  refine ⟨hon, ?_, hwrites, rfl⟩
  obtain ⟨v', hv'⟩ := Option.isSome_iff_exists.mp hrun
  show _ = some (Vfs.next v c mem)
  rw [Vfs.next, hv']
  rfl

theorem ramfs_contents_two : ∃ l,
    Exec (fun l x l' => ContentStep 0x2000 l x l' ∧ l'.Contents 0x2000) ⟨twoFiles, []⟩
      [(.write 0 (some [0x61, 0x62]) fun _ => 0xff, [0x3000]), (.write 1 (some [0x63]) fun _ => 0xff, [])]
      l ∧ l.log.read 0 2 = [0x61, 0x63] := by
  have h₁ : ContentStep 0x2000 ⟨twoFiles, []⟩ (.write 0 (some [0x61, 0x62]) fun _ => 0xff, [0x3000])
      ⟨twoFiles.next (.write 0 (some [0x61, 0x62]) fun _ => 0xff) [0x3000], [(0, [0x61, 0x62])]⟩ := by
    refine contentStep_next [] ⟨_, rfl, rfl, rfl⟩ (by decide +kernel) ?_
    intro k buf junk f inode hc hf hi
    cases hc
    cases hf
    cases hi
    exact ⟨by decide, by unfold NoRoom; decide +kernel⟩
  generalize hv : twoFiles.next (.write 0 (some [0x61, 0x62]) fun _ => 0xff) [0x3000] = v at h₁
  have hfile : ∃ f, v.files 1 = some f ∧ f.On 0x2000 ∧ f.fPos = 1 := by
    rw [← hv]
    exact ⟨_, rfl, ⟨rfl, rfl⟩, rfl⟩
  have hinode : (v.fs.inodes 0x2000).map (fun i => (i.size, i.dataCapacity)) = some (2, 4096) := by
    rw [← hv]
    decide +kernel
  have hrun : ((v.withMem []).run (.write 1 (some [0x63]) fun _ => 0xff)).isSome = true := by
    rw [← hv]
    decide +kernel
  obtain ⟨f, hf, hon, hpos⟩ := hfile
  obtain ⟨inode, hi, hsize⟩ := Option.map_eq_some_iff.mp hinode
  obtain ⟨hsize, hcap⟩ := Prod.mk.inj hsize
  have hwrite : ∀ {P : File → RamfsInode → List UInt8 → Bytes → Prop},
      P f inode [0x63] (fun _ => 0xff) →
      FileCall.Writes v P (.write 1 (some [0x63]) fun _ => 0xff) := by
    intro P hP k buf junk f' inode' hc hf' hi'
    cases hc
    obtain rfl := Option.some.inj (hf.symm.trans hf')
    rw [hon.1] at hi'
    obtain rfl := Option.some.inj (hi.symm.trans hi')
    exact hP
  have hroom : ∀ {s : Ramfs}, ¬NoRoom s inode (f.fPos + [(0x63 : UInt8)].length) := by
    intro s hno
    have hlt := hno.1
    rw [hcap, hpos] at hlt
    exact absurd hlt (by decide)
  have hlog : v.wrote (.write 1 (some [0x63]) fun _ => 0xff) = [(1, [0x63])] := by
    rw [Vfs.wrote, hf, Option.toList_some, List.map_singleton, hpos]
  have h₂ : ContentStep 0x2000 ⟨v, [(0, [0x61, 0x62])]⟩ (.write 1 (some [0x63]) fun _ => 0xff, [])
      ⟨v.next (.write 1 (some [0x63]) fun _ => 0xff) [], [(1, [0x63]), (0, [0x61, 0x62])]⟩ := by
    have hcall : FileCall.On v 0x2000 (.write 1 (some [0x63]) fun _ => 0xff) := ⟨f, hf, hon⟩
    have h := contentStep_next [(0, [0x61, 0x62])] hcall hrun
      (hwrite ⟨by rw [hpos]; decide, hroom⟩)
    rwa [hlog] at h
  refine ⟨_, (ramfs_contents (a := 0x2000) (v := twoFiles) (by decide) rfl ⟨rfl, rfl, rfl⟩ _ _).2.mpr
    (.cons ⟨h₁, ?_⟩ (.cons ⟨h₂, hwrite ⟨?_, ?_⟩⟩ (.nil _))), rfl⟩
  · intro k buf junk f inode hc hf hi
    cases hc
    cases hf
    cases hi
    exact ⟨fun h => absurd h (by decide), fun i _ hi => absurd hi (Nat.not_lt_zero i)⟩
  · intro h
    exact absurd h (by decide)
  · intro i hge hlt
    omega

/-- A byte is written behind the end of an empty file, at 1: the byte before it reads as what the
memory of the buffer has held. -/
theorem ramfs_gap_reads_junk :
    ¬ ∀ (v : Vfs) (a : ℕ) (inode : RamfsInode) (calls : List (FileCall × List ℕ)) (l : FileLog),
      a ≠ 0 → v.fs.inodes a = some inode → inode.Empty →
      Exec (ContentStep a) ⟨v, []⟩ calls l → l.Contents a := by
  intro hall
  have hstep : ContentStep 0x2000 ⟨twoFiles, []⟩ (.write 1 (some [0x63]) fun _ => 0xff, [0x3000])
      ⟨twoFiles.next (.write 1 (some [0x63]) fun _ => 0xff) [0x3000], [(1, [0x63])]⟩ := by
    refine contentStep_next [] ⟨_, rfl, rfl, rfl⟩ (by decide +kernel) ?_
    intro k buf junk f inode hc hf hi
    cases hc
    cases hf
    cases hi
    exact ⟨by decide, by unfold NoRoom; decide +kernel⟩
  have hcontents := hall twoFiles 0x2000 _ _ _ (by decide) rfl ⟨rfl, rfl, rfl⟩ (.cons hstep (.nil _))
  have hread := hcontents.read 0 _ rfl ⟨rfl, rfl⟩ 0 1
  have hbyte := congrArg (Option.map fun r => r.2.1) hread
  exact absurd hbyte (by decide +kernel)

end GcAos.Fs
