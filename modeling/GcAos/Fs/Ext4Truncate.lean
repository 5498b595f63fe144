import GcAos.Fs.Ext4Lens

/-! `ext4_vfs_truncate` and what `ext4_vfs_stat` and `ext4_read_file` see of the file afterwards. -/

namespace GcAos.Fs
open Lib Ext4 Draft

namespace Ext4

/-- The size as `ext4_vfs_stat` puts it together. -/
def statSize (inode : Bytes) : ℕ :=
  ext4Inode.get inode 0 .sizeLo ||| ext4Inode.get inode 0 .sizeHi <<< 32

/-- The size, the mode and the link count; `none` for an inode that cannot be read. -/
def vfsStat (s : Ext4) (ino : ℕ) : Option (ℕ × ℕ × ℕ) × Ext4 :=
  let (inode?, s) := s.readInode ino
  (inode?.map fun inode =>
    (statSize inode, ext4Inode.get inode 0 .mode, ext4Inode.get inode 0 .linksCount), s)

def ready (s : Ext4) : Ext4 := ⟨s.fs, [], []⟩

/-- The byte at `pos` of a file, zero in a hole. -/
def byteOf (s : Ext4) (v : Bytes) (pos : ℕ) : UInt8 :=
  if s.mapped v (pos / s.fs.blockSize) = 0 then 0
  else s.fs.device (s.mapped v (pos / s.fs.blockSize)) (pos % s.fs.blockSize)

/-- The pointers of an inode lie in the groups and beside the metadata. Whether the blocks are marked
used does not matter: a file keeps this after a truncate. -/
structure Sited (s : Ext4) (ino : ℕ) : Prop where
  sane : s.fs.geometry.Sane
  data : ∀ b, s.References ino (s.inodeOf ino) b → s.fs.geometry.InRange b ∧ ¬s.fs.geometry.Reserved b

/-- What a truncate of the file `ino` to `size` should leave, for every read that ends below 2^64. -/
structure Truncates (s s' : Ext4) (ino size : ℕ) : Prop where
  stat : (s'.ready.vfsStat ino).1.map Prod.fst = some size
  count : ∀ buf offset len, offset + len < 2 ^ 64 →
    (s'.ready.readFile ino buf offset len).1 = toInt (min len (size - offset))
  bytes : ∀ buf offset len, offset + len < 2 ^ 64 → ∀ i < min len (size - offset),
    (s'.ready.readFile ino buf offset len).2.1 i =
      if offset + i < statSize (s.inodeOf ino) then s.byteOf (s.inodeOf ino) (offset + i) else 0
  unmapped : ∀ fb, s'.blocksIn size ≤ fb → s'.mapped (s'.inodeOf ino) fb = 0
  blocks : ext4Inode.get (s'.inodeOf ino) 0 .blocksLo =
    { fb | s'.mapped (s'.inodeOf ino) fb ≠ 0 }.ncard * (s'.fs.blockSize / 512)

variable {s s' : Ext4} {ino size : ℕ} {v v' buf buf' : Bytes}

theorem rooted_self (ino : ℕ) (v : Bytes) :
    Geometry.Rooted (fun k c => k.1 = ino ∧ iBlock v k.2 = c) ino v := fun _ _ => ⟨rfl, rfl⟩

theorem Sited.refs (h : s.Sited ino) {k : ℕ × Fin 15} {p : List ℕ} {b : ℕ}
    (hb : Lib.Refs s.fs.geometry.shape (fun k c => k.1 = ino ∧ iBlock (s.inodeOf ino) k.2 = c)
      (Geometry.word s.fs.device) k p b) : s.fs.geometry.InRange b ∧ ¬s.fs.geometry.Reserved b :=
  h.data b ⟨k, p, hb⟩

theorem Sited.mapped (h : s.Sited ino) {fb : ℕ} (hne : s.mapped (s.inodeOf ino) fb ≠ 0) :
    s.fs.geometry.InRange (s.mapped (s.inodeOf ino) fb) ∧
      ¬s.fs.geometry.Reserved (s.mapped (s.inodeOf ino) fb) := by
  rw [mapped_eq rfl] at hne ⊢
  exact h.refs (Geometry.refs_fileBlock (rooted_self ino _) h.sane hne)

theorem sited_of_consistent (hs : s.fs.Consistent) (hino : ino ∈ s.fs.live) : s.Sited ino := by
  refine ⟨hs.sane, fun b ⟨k, p, hb⟩ => ?_⟩
  have hrefs : (Draft.closed s.fs.geometry s.fs.live s.fs).Refs s.fs.geometry k p b := by
    refine hb.mono (fun k c hr _ => ?_) fun _ _ _ _ _ _ _ => rfl
    obtain ⟨rfl, hblock⟩ := hr
    exact ⟨hino, hblock⟩
  have hdata := hs.data _ _ _ hrefs
  exact ⟨hdata.inRange, hdata.not_reserved⟩

theorem Sited.mapped_congr (h : s.Sited ino) (hgeo : s'.fs.geometry = s.fs.geometry)
    (hdev : ∀ c, ¬s.fs.geometry.Reserved c → s'.fs.device c = s.fs.device c)
    (hptr : ∀ k, iBlock v' k = iBlock (s.inodeOf ino) k) (fb : ℕ) :
    s'.mapped v' fb = s.mapped (s.inodeOf ino) fb := by
  rw [mapped_eq hgeo, mapped_eq rfl, Geometry.fileBlock_inode_congr hptr]
  apply Geometry.fileBlock_congr (rooted_self ino (s.inodeOf ino))
  intro k p c hc _
  exact hdev c (h.refs hc).2

theorem Sited.byteOf_congr (h : s.Sited ino) (hgeo : s'.fs.geometry = s.fs.geometry)
    (hdev : ∀ c, ¬s.fs.geometry.Reserved c → s'.fs.device c = s.fs.device c)
    (hptr : ∀ k, iBlock v' k = iBlock (s.inodeOf ino) k) (pos : ℕ) :
    s'.byteOf v' pos = s.byteOf (s.inodeOf ino) pos := by
  have hbs : s'.fs.blockSize = s.fs.blockSize := congrArg Geometry.blockSize hgeo
  rw [byteOf, byteOf, hbs, h.mapped_congr hgeo hdev hptr]
  split
  · rfl
  · next hne => rw [hdev _ (h.mapped hne).2]

theorem Sited.releaseBlocks (h : s.Sited ino) {bs : List ℕ} {s₁ : Ext4}
    (hgeo : s₁.fs.geometry = s.fs.geometry)
    (hdev : ∀ c, ¬s.fs.geometry.Reserved c → s₁.fs.device c = s.fs.device c) :
    (releaseBlocks (s.inodeOf ino) bs s₁).fs.geometry = s.fs.geometry ∧
      ∀ c, ¬s.fs.geometry.Reserved c →
        (releaseBlocks (s.inodeOf ino) bs s₁).fs.device c = s.fs.device c := by
  induction bs generalizing s₁ with
  | nil => exact ⟨hgeo, hdev⟩
  | cons b bs ih =>
    rw [Ext4.releaseBlocks]
    rcases hget : s₁.getFileBlock (s.inodeOf ino) b with ⟨c, s₂⟩
    obtain ⟨hfs₂, -, hc, -⟩ := getFileBlock_eq hgeo hget
    have hmap := h.mapped_congr hgeo hdev (fun _ => rfl) b
    rw [mapped_eq hgeo] at hmap
    rw [hmap] at hc
    dsimp only
    split
    · next hne =>
      obtain ⟨hrange, -⟩ := h.mapped (hc.resolve_left hne ▸ hne)
      rw [← hc.resolve_left hne] at hrange
      rcases hfree : s₂.freeBlock c with ⟨r, s₃⟩
      have hgeo₂ : s₂.fs.geometry = s.fs.geometry := hfs₂ ▸ hgeo
      rcases (freeBlock_eq hgeo₂ h.sane hrange hfree).2 with hsame | hdrop
      · refine ih ?_ fun c hc => ?_
        · rw [hsame, hgeo₂]
        · rw [hsame, hfs₂, hdev c hc]
      · have hper : s.fs.geometry.indexOf c < BitmapKind.block.perGroup s₂.fs := by
          rw [show BitmapKind.block.perGroup s₂.fs = s.fs.geometry.blocksPerGroup from
            congrArg Geometry.blocksPerGroup hgeo₂]
          exact h.sane.indexOf_lt
        refine ih ?_ fun d hd => ?_
        · rw [hdrop, Ext4Fs.geometry_dropBit, hgeo₂]
        · rw [hdrop, Ext4Fs.device_dropBit hgeo₂ h.sane hper, Function.update_of_ne, hfs₂, hdev d hd]
          rintro rfl
          exact hd (Geometry.reserved_place (Ext4Fs.has_bitmap (h.sane.groupOf_lt hrange)))
    · refine ih ?_ fun d hd => ?_
      · rw [hfs₂, hgeo]
      · rw [hfs₂, hdev d hd]

structure Resized (s s' : Ext4) (ino size : ℕ) : Prop where
  valid : s.fs.geometry.ValidIno ino
  geometry : s'.fs.geometry = s.fs.geometry
  device : ∀ c, ¬s.fs.geometry.Reserved c → s'.fs.device c = s.fs.device c
  sizeLo : ext4Inode.get (s'.inodeOf ino) 0 .sizeLo = size % 2 ^ 32
  sizeHi : ext4Inode.get (s'.inodeOf ino) 0 .sizeHi = size / 2 ^ 32 % 2 ^ 32
  others : ∀ f, f ≠ .sizeLo → f ≠ .sizeHi →
    ext4Inode.get (s'.inodeOf ino) 0 f = ext4Inode.get (s.inodeOf ino) 0 f

theorem Sited.vfsTruncate (h : s.Sited ino) (hcall : s.vfsTruncate ino size = (0, s')) :
    Resized s s' ino size := by
  unfold Ext4.vfsTruncate at hcall
  rcases hread : s.readInode ino with ⟨v?, s₁⟩
  obtain ⟨hfs₁, -, hsome, -⟩ := readInode_eq rfl h.sane hread
  rw [hread] at hcall
  dsimp only at hcall
  split at hcall
  · cases (Prod.mk.inj hcall).1
  next v =>
  obtain ⟨hvalid, rfl⟩ := hsome v rfl
  have hinode : s.fs.geometry.inode s.fs.device ino = s.inodeOf ino := rfl
  rw [hinode] at hcall
  generalize hrelease : (if size < ext4Inode.get (s.inodeOf ino) 0 .sizeLo then
    Ext4.releaseBlocks (s.inodeOf ino) _ s₁ else s₁) = s₂ at hcall
  have hquiet : s₂.fs.geometry = s.fs.geometry ∧
      ∀ c, ¬s.fs.geometry.Reserved c → s₂.fs.device c = s.fs.device c := by
    have hgeo₁ : s₁.fs.geometry = s.fs.geometry := by rw [hfs₁]
    have hdev₁ : ∀ c, ¬s.fs.geometry.Reserved c → s₁.fs.device c = s.fs.device c :=
      fun _ _ => by rw [hfs₁]
    rw [← hrelease]
    split
    · exact h.releaseBlocks hgeo₁ hdev₁
    · exact ⟨hgeo₁, hdev₁⟩
  obtain ⟨hgeo₂, hdev₂⟩ := hquiet
  obtain ⟨-, ⟨hfail, -⟩ | ⟨-, -, hput⟩⟩ := writeInode_eq hgeo₂ hcall
  · cases hfail
  generalize hw : ext4Inode.set _ 0 .sizeHi _ = w at hput
  have hgeo : s'.fs.geometry = s.fs.geometry := by
    rw [hput, Ext4Fs.geometry_putInode, hgeo₂]
  have hfield (f : InodeField) : ext4Inode.get (s'.inodeOf ino) 0 f = ext4Inode.get w 0 f := by
    refine Geometry.field_congr fun i hi => ?_
    rw [inodeOf, hgeo, hput]
    exact Ext4Fs.inode_putInode_self hgeo₂ h.sane hi
  refine ⟨hvalid, hgeo, fun c hc => ?_, ?_, ?_, fun f hlo hhi => ?_⟩
  · rw [hput, Ext4Fs.device_putInode hgeo₂ h.sane, Function.update_of_ne, hdev₂ c hc]
    rintro rfl
    exact hc (Geometry.reserved_place (h.sane.has_inodeArea hvalid))
  · rw [hfield, ← hw, Layout.get_set_of_field_ne (by decide)]
    exact Layout.get_set_self
  · rw [hfield, ← hw]
    exact Layout.get_set_self
  · rw [hfield, ← hw, Layout.get_set_of_field_ne hhi.symm, Layout.get_set_of_field_ne hlo.symm]

theorem eq_ready (hfs : s'.fs = s.fs) (hlater : Later s.ready s') : s' = s.ready := by
  obtain ⟨fs', kmallocs', ios'⟩ := s'
  obtain rfl : fs' = s.fs := hfs
  obtain rfl : kmallocs' = [] := hlater.kmallocs_nil rfl
  obtain rfl : ios' = [] := hlater.ios_nil rfl
  rfl

theorem ready_kmalloc (s : Ext4) : s.ready.kmalloc = (true, s.ready) := rfl

theorem ready_readBlock (s : Ext4) (b : ℕ) : s.ready.readBlock b = (some (s.fs.device b), s.ready) :=
  rfl

theorem ready_getFileBlock (s : Ext4) (v : Bytes) (fb : ℕ) :
    s.ready.getFileBlock v fb = (s.mapped v fb, s.ready) := by
  rcases hget : s.ready.getFileBlock v fb with ⟨c, s'⟩
  obtain ⟨hfs, hlater, -, -⟩ := getFileBlock_eq (s := s.ready) rfl hget
  refine Prod.ext ?_ (eq_ready hfs hlater)
  exact (congrArg Prod.fst hget).symm

theorem ready_readInode (hg : s.fs.geometry.Sane) (hino : s.fs.geometry.ValidIno ino) :
    s.ready.readInode ino = (some (s.inodeOf ino), s.ready) := by
  rcases hread : s.ready.readInode ino with ⟨v?, s'⟩
  obtain ⟨hfs, hlater, -, hsome⟩ := readInode_eq (s := s.ready) rfl hg hread
  exact Prod.ext (hsome rfl rfl hino) (eq_ready hfs hlater)

/-- The copy loop over mapped blocks: the induction is on the turns left, and each of them copies up
to the end of a block or of the read. -/
theorem readLoop_ready {offset len : ℕ} (hpos : 0 < s.fs.blockSize) (hlen : offset + len < 2 ^ 64) :
    ∀ fuel done buf, done ≤ len → len ≤ done + fuel →
      (∀ pos, offset + done ≤ pos → pos < offset + len → s.mapped v (pos / s.fs.blockSize) ≠ 0) →
      ∃ buf', readLoop v offset len fuel done buf s.ready = (len, buf', s.ready) ∧
        (∀ i < done, buf' i = buf i) ∧
        ∀ i, done ≤ i → i < len → buf' i = s.byteOf v (offset + i) := by
  intro fuel
  induction fuel with
  | zero =>
    intro done buf hdone hfuel _
    obtain rfl : done = len := by omega
    exact ⟨buf, rfl, fun _ _ => rfl, fun i hi hi' => absurd hi' (not_lt.mpr hi)⟩
  | succ fuel ih =>
    intro done buf hdone hfuel hmapped
    rw [readLoop]
    split
    · next hlt =>
      have hmod : (offset + done) % 2 ^ 64 = offset + done := Nat.mod_eq_of_lt (by omega)
      have hne := hmapped (offset + done) le_rfl (by omega)
      have hbs : s.ready.fs.blockSize = s.fs.blockSize := rfl
      rw [hmod, hbs]
      dsimp only
      rw [ready_getFileBlock]
      dsimp only
      rw [if_neg hne, ready_readBlock]
      dsimp only
      rw [hbs]
      generalize hcopy : min (s.fs.blockSize - (offset + done) % s.fs.blockSize) (len - done) = n
      have hoff := Nat.mod_lt (offset + done) hpos
      obtain ⟨buf', hloop, hold, hnew⟩ := ih (done + n)
        (buf.blit done n fun i =>
          s.fs.device (s.mapped v ((offset + done) / s.fs.blockSize))
            ((offset + done) % s.fs.blockSize + i))
        (by omega) (by omega) fun pos hpos hpos' => hmapped pos (by omega) hpos'
      refine ⟨buf', hloop, fun i hi => ?_, fun i hi hi' => ?_⟩
      · rw [hold i (by omega), Bytes.blit_of_lt hi]
      · rcases Nat.lt_or_ge i (done + n) with hin | hout
        · obtain ⟨j, rfl⟩ := Nat.exists_eq_add_of_le hi
          have hj : j % s.fs.blockSize = j := Nat.mod_eq_of_lt (by omega)
          have hroom : (offset + done) % s.fs.blockSize + j % s.fs.blockSize < s.fs.blockSize := by
            omega
          have hdiv : (offset + (done + j)) / s.fs.blockSize = (offset + done) / s.fs.blockSize := by
            rw [← Nat.add_assoc, Nat.add_div_eq_of_add_mod_lt hroom,
              Nat.div_eq_of_lt (show j < s.fs.blockSize by omega), Nat.add_zero]
          have hmod' : (offset + (done + j)) % s.fs.blockSize =
              (offset + done) % s.fs.blockSize + j := by
            rw [← Nat.add_assoc, Nat.add_mod_of_add_mod_lt hroom, hj]
          rw [hold _ hin, Bytes.blit_of_mem (by omega), byteOf, hdiv, if_neg hne, hmod']
        · exact hnew i hout hi'
    · obtain rfl : done = len := by omega
      exact ⟨buf, rfl, fun _ _ => rfl, fun i hi hi' => absurd hi' (not_lt.mpr hi)⟩

section
variable {offset len : ℕ} (hg : s.fs.geometry.Sane) (hino : s.fs.geometry.ValidIno ino)
include hg hino

theorem readFile_end (h : ext4Inode.get (s.inodeOf ino) 0 .sizeLo ≤ offset) :
    s.ready.readFile ino buf offset len = (0, buf, s.ready) := by
  rw [readFile, ready_readInode hg hino]
  dsimp only
  rw [if_pos h]

theorem ready_readFile (h : offset < ext4Inode.get (s.inodeOf ino) 0 .sizeLo)
    (hlen : offset + len < 2 ^ 64) {n : ℕ}
    (hn : n = min len (ext4Inode.get (s.inodeOf ino) 0 .sizeLo - offset)) :
    s.ready.readFile ino buf offset len =
      (toInt (readLoop (s.inodeOf ino) offset n n 0 buf s.ready).1,
        (readLoop (s.inodeOf ino) offset n n 0 buf s.ready).2) := by
  have hclip : (if ext4Inode.get (s.inodeOf ino) 0 .sizeLo < (offset + len) % 2 ^ 64 then
      ext4Inode.get (s.inodeOf ino) 0 .sizeLo - offset else len) = n := by
    rw [Nat.mod_eq_of_lt hlen]
    split <;> omega
  rw [readFile, ready_readInode hg hino]
  dsimp only
  rw [if_neg (not_le.mpr h), hclip, ready_kmalloc]
  rfl

theorem readFile_hole (h : offset < ext4Inode.get (s.inodeOf ino) 0 .sizeLo)
    (hlen : offset + len < 2 ^ 64)
    (hhole : s.mapped (s.inodeOf ino) (offset / s.fs.blockSize) = 0) :
    (s.ready.readFile ino buf offset len).1 = 0 := by
  obtain ⟨n, hn⟩ : ∃ n, n = min len (ext4Inode.get (s.inodeOf ino) 0 .sizeLo - offset) := ⟨_, rfl⟩
  rw [ready_readFile hg hino h hlen hn]
  have hbs : s.ready.fs.blockSize = s.fs.blockSize := rfl
  have hmod : (offset + 0) % 2 ^ 64 = offset :=
    Nat.mod_eq_of_lt ((Nat.le_add_right offset len).trans_lt hlen)
  suffices hnone : (readLoop (s.inodeOf ino) offset n n 0 buf s.ready).1 = 0 by
    rw [hnone]
    show toInt 0 = 0
    decide
  cases n with
  | zero => rfl
  | succ n =>
    rw [readLoop, if_pos (Nat.succ_pos n), hmod, hbs]
    dsimp only
    rw [ready_getFileBlock, hhole]
    rfl

theorem readFile_mapped (buf : Bytes) (offset len : ℕ)
    (h : offset < ext4Inode.get (s.inodeOf ino) 0 .sizeLo) (hlen : offset + len < 2 ^ 64)
    (hmapped : ∀ pos, offset ≤ pos →
      pos < offset + min len (ext4Inode.get (s.inodeOf ino) 0 .sizeLo - offset) →
      s.mapped (s.inodeOf ino) (pos / s.fs.blockSize) ≠ 0) :
    (s.ready.readFile ino buf offset len).1 =
        toInt (min len (ext4Inode.get (s.inodeOf ino) 0 .sizeLo - offset)) ∧
      ∀ i < min len (ext4Inode.get (s.inodeOf ino) 0 .sizeLo - offset),
        (s.ready.readFile ino buf offset len).2.1 i = s.byteOf (s.inodeOf ino) (offset + i) := by
  obtain ⟨n, hn⟩ : ∃ n, n = min len (ext4Inode.get (s.inodeOf ino) 0 .sizeLo - offset) := ⟨_, rfl⟩
  rw [ready_readFile hg hino h hlen hn]
  rw [← hn] at hmapped ⊢
  obtain ⟨buf', hloop, -, hnew⟩ := readLoop_ready hg.blockSize_pos (by omega) n 0 buf (Nat.zero_le n)
    (Nat.zero_add n).ge hmapped
  rw [hloop]
  dsimp only
  exact ⟨rfl, fun i hi => hnew i (Nat.zero_le i) hi⟩

end

theorem lt_blocksIn_iff (hpos : 0 < s.fs.blockSize) {fb : ℕ} :
    fb < s.blocksIn size ↔ fb * s.fs.blockSize < size := by
  rw [blocksIn, Nat.lt_iff_add_one_le, Nat.le_div_iff_mul_le hpos, Nat.succ_mul]
  omega

theorem div_lt_blocksIn (hpos : 0 < s.fs.blockSize) {pos : ℕ} (h : pos < size) :
    pos / s.fs.blockSize < s.blocksIn size :=
  (lt_blocksIn_iff hpos).mpr ((Nat.div_mul_le_self _ _).trans_lt h)

namespace Resized

variable (hr : Resized s s' ino size)
include hr

theorem iBlock_eq (k : Fin 15) : iBlock (s'.inodeOf ino) k = iBlock (s.inodeOf ino) k :=
  hr.others _ (by simp) (by simp)

theorem mapped_eq (h : s.Sited ino) (fb : ℕ) :
    s'.mapped (s'.inodeOf ino) fb = s.mapped (s.inodeOf ino) fb :=
  h.mapped_congr hr.geometry hr.device hr.iBlock_eq fb

theorem byteOf_eq (h : s.Sited ino) (pos : ℕ) :
    s'.byteOf (s'.inodeOf ino) pos = s.byteOf (s.inodeOf ino) pos :=
  h.byteOf_congr hr.geometry hr.device hr.iBlock_eq pos

theorem statSize_eq (hsize : size < 2 ^ 64) : statSize (s'.inodeOf ino) = size := by
  have hhi : size / 2 ^ 32 % 2 ^ 32 = size / 2 ^ 32 := Nat.mod_eq_of_lt (by omega)
  rw [statSize, hr.sizeLo, hr.sizeHi, hhi, Nat.lor_comm,
    ← Nat.shiftLeft_add_eq_or_of_lt (Nat.mod_lt _ (Nat.two_pow_pos 32)), Nat.shiftLeft_eq]
  omega

theorem sizeLo_eq (hlt : size < 2 ^ 32) : ext4Inode.get (s'.inodeOf ino) 0 .sizeLo = size := by
  rw [hr.sizeLo, Nat.mod_eq_of_lt hlt]

theorem validIno : s'.fs.geometry.ValidIno ino := hr.geometry ▸ hr.valid

theorem blockSize_eq : s'.fs.blockSize = s.fs.blockSize := congrArg Geometry.blockSize hr.geometry

theorem blocksIn_eq : s'.blocksIn size = s.blocksIn size := by
  rw [blocksIn, blocksIn, hr.blockSize_eq]

section
variable (h : s.Sited ino)
include h

theorem sane : s'.fs.geometry.Sane := hr.geometry ▸ h.sane

theorem readFile_eq (hlt : size < 2 ^ 32)
    (hmap : ∀ fb < s.blocksIn size, s.mapped (s.inodeOf ino) fb ≠ 0) (buf : Bytes) {offset len : ℕ}
    (hoff : offset < size) (hlen : offset + len < 2 ^ 64) :
    (s'.ready.readFile ino buf offset len).1 = toInt (min len (size - offset)) ∧
      ∀ i < min len (size - offset),
        (s'.ready.readFile ino buf offset len).2.1 i = s.byteOf (s.inodeOf ino) (offset + i) := by
  have hlo := hr.sizeLo_eq hlt
  have hread := readFile_mapped (hr.sane h) hr.validIno buf offset len (hlo ▸ hoff) hlen
    fun pos _ hpos => by
      rw [hlo] at hpos
      rw [hr.blockSize_eq, hr.mapped_eq h]
      exact hmap _ (div_lt_blocksIn h.sane.blockSize_pos (by omega))
  rw [hlo] at hread
  exact ⟨hread.1, fun i hi => (hread.2 i hi).trans (hr.byteOf_eq h _)⟩

theorem ncard_mapped (hmap : ∀ fb, s.mapped (s.inodeOf ino) fb ≠ 0 ↔ fb < s.blocksIn size) :
    { fb | s'.mapped (s'.inodeOf ino) fb ≠ 0 }.ncard = s.blocksIn size := by
  have hset : { fb | s'.mapped (s'.inodeOf ino) fb ≠ 0 } = Finset.range (s.blocksIn size) := by
    ext fb
    rw [Set.mem_ofPred_eq, hr.mapped_eq h, hmap, Finset.mem_coe, Finset.mem_range]
  rw [hset, Set.ncard_coe_finset, Finset.card_range]

theorem size_lt (ht : Truncates s s' ino size) : size < 2 ^ 32 := by
  by_contra hge
  have hcount := ht.count (fun _ => 0) (size % 2 ^ 32) 1 (by omega)
  rw [readFile_end (hr.sane h) hr.validIno hr.sizeLo.le, Nat.min_eq_left (by omega)] at hcount
  exact absurd (show (0 : ℤ) = toInt 1 from hcount) (by decide)

theorem mapped_iff (ht : Truncates s s' ino size) (fb : ℕ) :
    s.mapped (s.inodeOf ino) fb ≠ 0 ↔ fb < s.blocksIn size := by
  have hpos : 0 < s.fs.blockSize := h.sane.blockSize_pos
  have hlt := hr.size_lt h ht
  constructor
  · intro hne
    by_contra hge
    have hzero := ht.unmapped fb (hr.blocksIn_eq ▸ not_lt.mp hge)
    exact hne ((hr.mapped_eq h fb).symm.trans hzero)
  · intro hfb hzero
    have hoff := (lt_blocksIn_iff hpos).mp hfb
    have hcount := ht.count (fun _ => 0) (fb * s.fs.blockSize) 1 (by omega)
    rw [readFile_hole (hr.sane h) hr.validIno (hr.sizeLo_eq hlt ▸ hoff) (by omega) ?_,
      Nat.min_eq_left (by omega)] at hcount
    · exact absurd hcount (by decide)
    · rw [hr.blockSize_eq, Nat.mul_div_cancel _ hpos, hr.mapped_eq h, hzero]

end

end Resized

/-- A truncate does what it should exactly if the file needs no change of its block map: below the
new end all blocks are mapped, and hold zeros behind the old end, above it there is none, and the
count of the inode is right for them. -/
theorem truncate_iff (h : s.Sited ino) (hsize : size < 2 ^ 64)
    (hcall : s.vfsTruncate ino size = (0, s')) :
    Truncates s s' ino size ↔
      size < 2 ^ 32 ∧ (∀ fb, s.mapped (s.inodeOf ino) fb ≠ 0 ↔ fb < s.blocksIn size) ∧
        (∀ pos, statSize (s.inodeOf ino) ≤ pos → pos < size → s.byteOf (s.inodeOf ino) pos = 0) ∧
        ext4Inode.get (s.inodeOf ino) 0 .blocksLo = s.blocksIn size * (s.fs.blockSize / 512) := by
  have hr := h.vfsTruncate hcall
  constructor
  · intro ht
    have hlt := hr.size_lt h ht
    have hmap := hr.mapped_iff h ht
    refine ⟨hlt, hmap, fun pos hold hnew => ?_, ?_⟩
    · have hbytes := ht.bytes (fun _ => 0) pos 1 (by omega) 0 (by omega)
      obtain ⟨-, hread⟩ := hr.readFile_eq h hlt (fun fb => (hmap fb).mpr) (fun _ => 0) hnew
        (show pos + 1 < 2 ^ 64 by omega)
      rw [hread 0 (by omega), if_neg (by omega)] at hbytes
      exact hbytes
    · rw [← hr.ncard_mapped h hmap, ← hr.others _ (by simp) (by simp), ← hr.blockSize_eq]
      exact ht.blocks
  · rintro ⟨hlt, hmap, hzero, hcount⟩
    have hread := hr.readFile_eq h hlt fun fb => (hmap fb).mpr
    refine ⟨?_, fun buf offset len hlen => ?_, fun buf offset len hlen i hi => ?_, fun fb hfb => ?_, ?_⟩
    · rw [vfsStat, ready_readInode (hr.sane h) hr.validIno]
      exact congrArg some (hr.statSize_eq hsize)
    · rcases Nat.lt_or_ge offset size with hoff | hoff
      · exact (hread buf hoff hlen).1
      · rw [readFile_end (hr.sane h) hr.validIno (hr.sizeLo_eq hlt ▸ hoff),
          Nat.sub_eq_zero_of_le hoff, Nat.min_zero]
        show 0 = toInt 0
        decide
    · rw [(hread buf (by omega) hlen).2 i hi]
      split
      · rfl
      · exact hzero _ (by omega) (by omega)
    · rw [hr.mapped_eq h]
      by_contra hne
      exact absurd ((hmap fb).mp hne) (not_lt.mpr (hr.blocksIn_eq ▸ hfb))
    · rw [hr.ncard_mapped h hmap, hr.others _ (by simp) (by simp), hr.blockSize_eq]
      exact hcount

def threeBytes : Ext4 :=
  ((sample.call (.create 2 nameA 0x8000)).2.call (.write 3 (fun _ => 1) 0 3)).2

theorem threeBytes_consistent : threeBytes.fs.Consistent ∧ 3 ∈ threeBytes.fs.live := by
  have hcreate : sample.Gentle (.create 2 nameA 0x8000) :=
    ⟨fun _ => by decide +kernel, .inl rfl⟩
  have hafter : 3 ∈ (sample.call (.create 2 nameA 0x8000)).2.fs.live ∧
      (sample.call (.create 2 nameA 0x8000)).2.kmallocs = [] := by decide +kernel
  have hwrite : (sample.call (.create 2 nameA 0x8000)).2.Gentle (.write 3 (fun _ => 1) 0 3) :=
    ⟨fun _ => hafter.1, .inl hafter.2⟩
  have hlive : 3 ∈ threeBytes.fs.live := by decide +kernel
  rw [threeBytes] at hlive ⊢
  obtain ⟨hs, hios⟩ := call_consistent sampleFs_consistent rfl hcreate
  exact ⟨(call_consistent hs hios hwrite).1, hlive⟩

theorem threeBytes_mapped (fb : ℕ) :
    threeBytes.mapped (threeBytes.inodeOf 3) fb ≠ 0 ↔ fb < threeBytes.blocksIn 2 := by
  have hfile : threeBytes.blocksIn 2 = 1 ∧
      ∀ k : Fin 15, iBlock (threeBytes.inodeOf 3) k ≠ 0 ↔ k.1 < 1 := by decide +kernel
  obtain ⟨hone, hptrs⟩ := hfile
  have hind : iBlock (threeBytes.inodeOf 3) ext4IndBlock = 0 :=
    of_not_not ((hptrs ext4IndBlock).not.mpr (by decide))
  have hdind : iBlock (threeBytes.inodeOf 3) ext4DindBlock = 0 :=
    of_not_not ((hptrs ext4DindBlock).not.mpr (by decide))
  rw [hone, mapped_eq rfl]
  unfold Geometry.fileBlock
  split
  · exact hptrs _
  · next hdir =>
    have hfb : ¬fb < 1 := fun h => hdir (h.trans (by decide))
    dsimp only
    rw [ite_self, ite_self]
    exact iff_of_false (fun h => h rfl) hfb

theorem truncate_three_bytes :
    ∃ s', threeBytes.vfsTruncate 3 2 = (0, s') ∧ Truncates threeBytes s' 3 2 := by
  obtain ⟨hs, hlive⟩ := threeBytes_consistent
  have hret : (threeBytes.vfsTruncate 3 2).1 = 0 := by decide +kernel
  have hsize : 2 ≤ statSize (threeBytes.inodeOf 3) := by decide +kernel
  rcases hcall : threeBytes.vfsTruncate 3 2 with ⟨r, s'⟩
  rw [hcall] at hret
  obtain rfl : r = 0 := hret
  refine ⟨s', rfl, (truncate_iff (sited_of_consistent hs hlive) (by decide) hcall).mpr ?_⟩
  refine ⟨by decide, threeBytes_mapped, fun pos hold hnew => ?_, by decide +kernel⟩
  exact absurd hnew (not_lt.mpr (hsize.trans hold))

theorem truncate_keeps_block : threeBytes.fs.Consistent ∧ 3 ∈ threeBytes.fs.live ∧
    threeBytes.ios = [] ∧ threeBytes.kmallocs = [] ∧
      ∃ s', threeBytes.vfsTruncate 3 0 = (0, s') ∧ ¬Truncates threeBytes s' 3 0 := by
  obtain ⟨hs, hlive⟩ := threeBytes_consistent
  have hquiet : threeBytes.ios = [] ∧ threeBytes.kmallocs = [] := by decide +kernel
  have hafter : (threeBytes.vfsTruncate 3 0).1 = 0 ∧
      (threeBytes.vfsTruncate 3 0).2.blocksIn 0 = 0 ∧
      (threeBytes.vfsTruncate 3 0).2.mapped ((threeBytes.vfsTruncate 3 0).2.inodeOf 3) 0 ≠ 0 := by
    decide +kernel
  rcases hcall : threeBytes.vfsTruncate 3 0 with ⟨r, s'⟩
  rw [hcall] at hafter
  obtain ⟨hret, hnone, hptr⟩ := hafter
  obtain rfl : r = 0 := hret
  exact ⟨hs, hlive, hquiet.1, hquiet.2, s', rfl, fun h => hptr (h.unmapped 0 hnone.le)⟩

end Ext4

end GcAos.Fs
