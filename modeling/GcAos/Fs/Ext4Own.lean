import GcAos.Fs.Ext4Calls

/-! Block ownership over whole runs of ext4 calls. -/

namespace GcAos.Fs
open Lib Ext4 Draft

inductive Ext4Call
  | create (parentIno : ℕ) (name : Bytes) (mode : ℕ)
  | write (ino : ℕ) (buf : Bytes) (offset len : ℕ)
  | truncate (ino size : ℕ)

def Ext4.call (s : Ext4) : Ext4Call → ℤ × Ext4
  | .create parentIno name mode => s.createFile parentIno name mode
  | .write ino buf offset len => s.writeFile ino buf offset len
  | .truncate ino size => s.vfsTruncate ino size

/-- The file system between two calls: the pointers that count are those of the inodes `L`. -/
def Draft.closed (g : Geometry) (L : Set ℕ) (fs : Ext4Fs) : Draft where
  fs := fs
  root k b := k.1 ∈ L ∧ iBlock (g.inode fs.device k.1) k.2 = b
  held := ∅
  inodes := ∅

namespace Draft.Sound

variable {g : Geometry} {L : Set ℕ} {D D' : Draft} {I : Set ℕ} {ino i : ℕ}

theorem close (h : Sound g L D) : Sound g L (closed g L D.fs) := by
  refine h.change h.geometry ?_ (fun _ _ _ _ _ _ _ => rfl) (fun _ _ _ hused => hused)
    (by simp [closed]) (fun i hi k _ => ⟨hi, rfl⟩) (by simp [closed])
  rintro k b ⟨hk, rfl⟩ hb
  exact h.table k.1 hk k.2 hb

theorem inode_edit (h : Sound g L D) (hedit : DraftEdit g ino D D') (hi : g.ValidIno i) (hne : i ≠ ino) :
    ∀ j < ext4Inode.size, g.inode D'.fs.device i j = g.inode D.fs.device i j := by
  intro j hj
  cases hedit with
  | work hwork => rw [h.inode_work hwork hi]
  | putInode hino _ => exact Ext4Fs.inode_putInode_of_ne h.geometry h.sane hino hi hne hj

theorem inode_edits (h : Sound g L D) (hedits : DraftEdits g I D D') (hi : g.ValidIno i) (hI : i ∉ I) :
    ∀ j < ext4Inode.size, g.inode D'.fs.device i j = g.inode D.fs.device i j := by
  induction hedits with
  | refl => exact fun _ _ => rfl
  | tail hedits hlast ih =>
    obtain ⟨ino, hino, hedit⟩ := hlast
    have hne : i ≠ ino := fun heq => hI (heq ▸ hino)
    intro j hj
    exact ((h.edits hedits).inode_edit hedit hi hne j hj).trans (ih j hj)

end Draft.Sound

namespace Ext4Fs

def live (fs : Ext4Fs) : Set ℕ :=
  { ino | fs.geometry.ValidIno ino ∧
    ext4Inode.get (fs.geometry.inode fs.device ino) 0 .linksCount ≠ 0 }

instance (fs : Ext4Fs) (ino : ℕ) : Decidable (ino ∈ fs.live) := inferInstanceAs (Decidable (_ ∧ _))

/-- The block `b` is referenced by a live inode, at the pointer `k.2` of inode `k.1` and the path
`p` of indices below it. -/
def Refs (fs : Ext4Fs) (k : ℕ × Fin 15) (p : List ℕ) (b : ℕ) : Prop :=
  (Draft.closed fs.geometry fs.live fs).Refs fs.geometry k p b

structure OwnsBlocks (fs : Ext4Fs) : Prop where
  unique : ∀ k p k' p' b, fs.Refs k p b → fs.Refs k' p' b → k = k' ∧ p = p'
  used : ∀ k p b, fs.Refs k p b →
    fs.geometry.InRange b ∧ fs.geometry.used fs.device b = true

/-- A consistent file system: the geometry makes sense, the metadata are marked used, and each
referenced block has one place and is marked used and no metadata. -/
def Consistent (fs : Ext4Fs) : Prop :=
  Sound fs.geometry fs.live (Draft.closed fs.geometry fs.live fs)

theorem Consistent.ownsBlocks {fs : Ext4Fs} (h : fs.Consistent) : fs.OwnsBlocks where
  unique _ _ _ _ _ hb hb' := h.owned hb hb'
  used _ _ _ hb := ⟨(h.data _ _ _ hb).inRange, (h.data _ _ _ hb).used⟩

theorem Consistent.live_subset {fs : Ext4Fs} {I L : Set ℕ} {D' : Draft} (h : fs.Consistent)
    (hedits : DraftEdits fs.geometry I (Draft.closed fs.geometry fs.live fs) D')
    (hs' : Sound fs.geometry L D') (hL : fs.live ⊆ L)
    (hI : ∀ i ∈ I, fs.geometry.ValidIno i → i ∈ L) : D'.fs.live ⊆ L := by
  have hgeo : D'.fs.geometry = fs.geometry := hs'.geometry
  rintro i ⟨hi, hlinks⟩
  rw [hgeo] at hi hlinks
  by_cases hmem : i ∈ I
  · exact hI i hmem hi
  · refine hL ⟨hi, ?_⟩
    rw [Geometry.field_congr (h.inode_edits hedits hi hmem)] at hlinks
    exact hlinks

theorem Consistent.of_edits {fs fs' : Ext4Fs} {I L : Set ℕ} {D' : Draft} (h : fs.Consistent)
    (hedits : DraftEdits fs.geometry I (Draft.closed fs.geometry fs.live fs) D') (hfs : D'.fs = fs')
    (hs' : Sound fs.geometry L D') (hL : fs.live ⊆ L)
    (hI : ∀ i ∈ I, fs.geometry.ValidIno i → i ∈ L) : fs'.Consistent := by
  subst hfs
  rw [Consistent, hs'.geometry]
  exact (hs'.anti (h.live_subset hedits hs' hL hI)).close

end Ext4Fs

namespace Ext4

def Named (s : Ext4) (ino : ℕ) : Prop := s.fs.geometry.ValidIno ino → ino ∈ s.fs.live

def inodeOf (s : Ext4) (ino : ℕ) : Bytes := s.fs.geometry.inode s.fs.device ino

def sizeOf (s : Ext4) (ino : ℕ) : ℕ := s.fs.geometry.size s.fs.device ino

/-- If the inode needs an indirect block for the blocks below `bound`, no memory is lacking to zero
it. -/
def ZeroesIndirect (s : Ext4) (ino bound : ℕ) : Prop :=
  s.kmallocs = [] ∨ iBlock (s.inodeOf ino) ext4IndBlock ≠ 0 ∨ bound ≤ ext4NdirBlocks

theorem ZeroesIndirect.canZero {s : Ext4} {ino last : ℕ} (h : s.ZeroesIndirect ino (last + 1))
    (hio : s.ios = []) : s.CanZero (s.inodeOf ino) last := by
  rcases h with hk | hind | hlast
  · exact .inl ⟨hk, hio⟩
  · exact .inr (.inl hind)
  · exact .inr (.inr hlast)

theorem ZeroesIndirect.canZero_pred {s : Ext4} {ino bound : ℕ} (h : s.ZeroesIndirect ino bound)
    (hio : s.ios = []) : s.CanZero (s.inodeOf ino) (bound - 1) := by
  rcases h with hk | hind | hlast
  · exact .inl ⟨hk, hio⟩
  · exact .inr (.inl hind)
  · exact .inr (.inr (by rw [ext4NdirBlocks] at hlast ⊢; omega))

theorem fileBlock_le {s : Ext4} {offset len w : ℕ} (hg : s.fs.geometry.Sane) (hw : w < len) :
    (offset + w) % 2 ^ 64 / s.fs.geometry.blockSize ≤ s.blocksIn (offset + len) - 1 := by
  have hpos := hg.blockSize_pos
  have hmod := Nat.div_le_div_right (c := s.fs.geometry.blockSize)
    (Nat.mod_le (offset + w) (2 ^ 64))
  have hlt : (offset + w) / s.fs.geometry.blockSize < s.blocksIn (offset + len) := by
    rw [blocksIn, show s.fs.blockSize = s.fs.geometry.blockSize from rfl,
      Nat.div_lt_iff_lt_mul hpos]
    have hdiv := Nat.lt_div_mul_add hpos (a := offset + len + s.fs.geometry.blockSize - 1)
    omega
  omega

def Releases (s : Ext4) (ino size b : ℕ) : Prop :=
  size < s.sizeOf ino ∧ s.blocksIn size ≤ b ∧ b < s.blocksIn (s.sizeOf ino) ∧
    s.fs.geometry.fileBlock s.fs.device (s.inodeOf ino) b ≠ 0

def Gentle (s : Ext4) : Ext4Call → Prop
  | .create parentIno _ _ =>
    s.Named parentIno ∧ s.ZeroesIndirect parentIno (s.blocksIn (s.sizeOf parentIno) + 1)
  | .write ino _ offset len =>
    s.Named ino ∧ s.ZeroesIndirect ino (s.blocksIn (offset + len))
  | .truncate ino size => s.Named ino ∧ ∀ b, ¬s.Releases ino size b

theorem releaseBlocks_of_holes {g : Geometry} {s : Ext4} {v : Bytes} {bs : List ℕ}
    (hfs : s.fs.geometry = g) (hbs : ∀ b ∈ bs, g.fileBlock s.fs.device v b = 0) :
    (releaseBlocks v bs s).fs = s.fs ∧ Later s (releaseBlocks v bs s) := by
  induction bs generalizing s with
  | nil => exact ⟨rfl, .refl _⟩
  | cons b bs ih =>
    unfold releaseBlocks
    rcases hget : s.getFileBlock v b with ⟨c, s₁⟩
    obtain ⟨hfs₁, hlater₁, hc, -⟩ := getFileBlock_eq hfs hget
    have hzero : c = 0 := by
      rcases hc with hc | hc
      · exact hc
      · rw [hc]
        exact hbs b (List.mem_cons_self ..)
    have hrest : ∀ b ∈ bs, g.fileBlock s₁.fs.device v b = 0 := by
      rw [hfs₁]
      exact fun b' hb' => hbs b' (List.mem_cons_of_mem _ hb')
    obtain ⟨hfs', hlater'⟩ := ih (hfs₁ ▸ hfs) hrest
    dsimp only
    rw [if_neg (not_not.mpr hzero)]
    exact ⟨hfs'.trans hfs₁, hlater₁.trans hlater'⟩

end Ext4

section
variable {g : Geometry} {I L : Set ℕ} {D : Draft} {s s' : Ext4} {ino size : ℕ} {r : ℤ}
  (hs : Sound g L D) (hD : D.fs = s.fs) (hI : ino ∈ I)
include hs hD hI

theorem vfsTruncate_edits (hino : g.ValidIno ino → ino ∈ L)
    (hnone : size < g.size s.fs.device ino → ∀ b, s.blocksIn size ≤ b →
      b < s.blocksIn (g.size s.fs.device ino) →
      g.fileBlock s.fs.device (g.inode s.fs.device ino) b = 0)
    (h : s.vfsTruncate ino size = (r, s')) :
    Later s s' ∧ ∃ D', DraftEdits g I D D' ∧ D'.fs = s'.fs := by
  unfold vfsTruncate at h
  rcases hread : s.readInode ino with ⟨v?, s₁⟩
  obtain ⟨hfs₁, hlater₁, hsome, -⟩ := readInode_eq (geometry_eq hs hD) hs.sane hread
  rw [hread] at h
  dsimp only at h
  split at h
  · obtain ⟨rfl, rfl⟩ := Prod.mk.inj h
    exact ⟨hlater₁, D, .refl, hD.trans hfs₁.symm⟩
  · next v =>
    obtain ⟨hvalid, rfl⟩ := hsome v rfl
    generalize hrelease : (if size < ext4Inode.get (g.inode s.fs.device ino) 0 .sizeLo then
      releaseBlocks (g.inode s.fs.device ino) (List.range' (s₁.blocksIn size)
        (s₁.blocksIn (ext4Inode.get (g.inode s.fs.device ino) 0 .sizeLo) - s₁.blocksIn size)) s₁
      else s₁) = s₂ at h
    have hquiet : s₂.fs = s₁.fs ∧ Later s₁ s₂ := by
      rw [← hrelease]
      split
      · next hlt =>
        apply releaseBlocks_of_holes (hfs₁ ▸ geometry_eq hs hD)
        intro b hb
        rw [hfs₁]
        obtain ⟨hlo, hhi⟩ := List.mem_range'_1.mp hb
        have hblocks (n : ℕ) : s₁.blocksIn n = s.blocksIn n := by rw [blocksIn, blocksIn, hfs₁]
        rw [hblocks] at hlo
        rw [hblocks, hblocks] at hhi
        exact hnone hlt b hlo (by rw [Geometry.size]; omega)
      · exact ⟨rfl, .refl _⟩
    have hroot : Geometry.Rooted D.root ino (g.inode s.fs.device ino) := by
      rw [← hD]
      exact hs.table ino (hino hvalid)
    obtain ⟨hlater₃, D₃, hedits₃, hfs₃, -⟩ := writeInode_edits hs
      (hD.trans (hquiet.1.trans hfs₁).symm) hI
      ((hroot.set_field (by simp)).set_field (by simp)) h
    exact ⟨hlater₁.trans (hquiet.2.trans hlater₃), D₃, hedits₃, hfs₃⟩

end

namespace Ext4

theorem call_edits {s : Ext4} {c : Ext4Call} (hs : s.fs.Consistent) (hio : s.ios = [])
    (hc : s.Gentle c) :
    Later s (s.call c).2 ∧ ∃ I L D',
      DraftEdits s.fs.geometry I (Draft.closed s.fs.geometry s.fs.live s.fs) D' ∧
      D'.fs = (s.call c).2.fs ∧ Sound s.fs.geometry L D' ∧ s.fs.live ⊆ L ∧
      ∀ i ∈ I, s.fs.geometry.ValidIno i → i ∈ L := by
  cases c with
  | create parentIno name mode =>
    obtain ⟨hnamed, hzero⟩ := hc
    rcases hcall : s.createFile parentIno name mode with ⟨r, s'⟩
    obtain ⟨hlater, N, D', hedits, hfs, hs', -⟩ :=
      createFile_edits hs rfl hnamed (fun _ => hzero.canZero hio) hcall
    simp only [call, hcall]
    refine ⟨hlater, _, _, D', hedits, hfs, hs', Set.subset_union_right, ?_⟩
    intro i hi hvalid
    rcases Set.mem_insert_iff.mp hi with rfl | hi
    · exact .inr (hnamed hvalid)
    · exact .inl hi
  | write ino buf offset len =>
    obtain ⟨hnamed, hzero⟩ := hc
    rcases hcall : s.writeFile ino buf offset len with ⟨r, s'⟩
    obtain ⟨hlater, D', hedits, hfs⟩ := writeFile_edits hs rfl (Set.mem_singleton ino) hnamed
      (fun _ => hzero.canZero_pred hio) (fun w hw => fileBlock_le hs.sane hw) hcall
    simp only [call, hcall]
    refine ⟨hlater, _, _, D', hedits, hfs, hs.edits hedits, subset_rfl, ?_⟩
    rintro i rfl
    exact hnamed
  | truncate ino size =>
    obtain ⟨hnamed, hnone⟩ := hc
    rcases hcall : s.vfsTruncate ino size with ⟨r, s'⟩
    have hholes (hlt : size < s.sizeOf ino) (b : ℕ) (hlo : s.blocksIn size ≤ b)
        (hhi : b < s.blocksIn (s.sizeOf ino)) :
        s.fs.geometry.fileBlock s.fs.device (s.inodeOf ino) b = 0 := by
      by_contra hne
      exact hnone b ⟨hlt, hlo, hhi, hne⟩
    obtain ⟨hlater, D', hedits, hfs⟩ :=
      vfsTruncate_edits hs rfl (Set.mem_singleton ino) hnamed hholes hcall
    simp only [call, hcall]
    refine ⟨hlater, _, _, D', hedits, hfs, hs.edits hedits, subset_rfl, ?_⟩
    rintro i rfl
    exact hnamed

theorem call_consistent {s : Ext4} {c : Ext4Call} (hs : s.fs.Consistent) (hio : s.ios = [])
    (hc : s.Gentle c) : (s.call c).2.fs.Consistent ∧ (s.call c).2.ios = [] := by
  obtain ⟨hlater, I, L, D', hedits, hfs, hs', hL, hI⟩ := call_edits hs hio hc
  exact ⟨hs.of_edits hedits hfs hs' hL hI, hlater.ios_nil hio⟩

/-- Along every run of gentle calls, no block gets two places and every referenced block stays
marked used. -/
theorem blocks_owned {s s' : Ext4} {cs : List Ext4Call} (hs : s.fs.Consistent) (hio : s.ios = [])
    (hrun : Exec (fun s c s' => s.Gentle c ∧ s' = (s.call c).2) s cs s') : s'.fs.OwnsBlocks := by
  have hinv : s'.fs.Consistent ∧ s'.ios = [] := by
    refine hrun.invariant (I := fun s => s.fs.Consistent ∧ s.ios = []) ?_ ⟨hs, hio⟩
    rintro s c _ ⟨hs, hio⟩ ⟨hc, rfl⟩
    exact call_consistent hs hio hc
  exact hinv.1.ownsBlocks

end Ext4

theorem Ext4Fs.not_refs_of_no_block {g : Geometry} {L : Set ℕ} {fs : Ext4Fs}
    (hnone : ∀ ino ∈ L, ∀ k, iBlock (g.inode fs.device ino) k = 0)
    (k : ℕ × Fin 15) (p : List ℕ) (b : ℕ) : ¬(Draft.closed g L fs).Refs g k p b := by
  intro hb
  induction hb with
  | root hr hb => exact hb (hr.2.symm.trans (hnone _ hr.1 _))
  | child _ _ _ _ ih => exact ih

theorem Ext4Fs.consistent_of_no_block {fs : Ext4Fs} (hg : fs.geometry.Sane)
    (hguard : ∀ b, fs.geometry.Reserved b → fs.geometry.InRange b →
      fs.geometry.used fs.device b = true)
    (hnone : ∀ ino ∈ fs.live, ∀ k, iBlock (fs.geometry.inode fs.device ino) k = 0) :
    fs.Consistent := by
  have hrefs := not_refs_of_no_block hnone
  exact
    { geometry := rfl
      sane := hg
      valid := fun _ hi => hi.1
      guarded := hguard
      owned := fun k p _ _ b hb => absurd hb (hrefs k p b)
      data := fun k p b hb => absurd hb (hrefs k p b)
      held := by simp [Draft.closed]
      fresh := by simp [Draft.closed]
      table := fun i hi k _ => ⟨hi, rfl⟩
      inodes := by simp [Draft.closed] }

def sampleSuper : Bytes :=
  [(SuperField.blocksCountLo, 64), (.freeBlocksCountLo, 58), (.freeInodesCount, 14),
    (.firstDataBlock, 1), (.blocksPerGroup, 64), (.inodesPerGroup, 16), (.magic, 0xEF53)].foldl
    (fun sb x => ext4Superblock.set sb 0 x.1 x.2) fun _ => 0

def sampleDesc : Bytes :=
  [(DescField.blockBitmapLo, 3), (.inodeBitmapLo, 4), (.inodeTableLo, 5),
    (.freeBlocksCountLo, 58), (.freeInodesCountLo, 14)].foldl
    (fun gd x => ext4GroupDesc.set gd 0 x.1 x.2) fun _ => 0

/-- One group of 64 blocks of 1024 bytes: the bitmaps in blocks 3 and 4, sixteen inodes in blocks 5
and 6, and an empty root directory as inode 2. -/
def sampleDevice : ℕ → Bytes
  | 1, i => sampleSuper i
  | 2, i => if i < 32 then sampleDesc i else 0
  | 3, 0 => 0x3F
  | 4, 0 => 0x03
  | 5, i => ext4Inode.set (ext4Inode.set (fun _ => 0) 128 .mode ext4SIfdir) 128 .linksCount 2 i
  | _, _ => 0

def sampleFs : Ext4Fs where
  sb := sampleSuper
  blockSize := 1024
  blocksPerGroup := 64
  inodesPerGroup := 16
  inodeSize := 128
  groupCount := 1
  descSize := 32
  groupDescs _ := sampleDesc
  device := sampleDevice

def sample : Ext4 := ⟨sampleFs, [], []⟩

theorem sampleFs_geometry : sampleFs.geometry.blockBitmap 0 = 3 ∧
    sampleFs.geometry.inodeBitmap 0 = 4 ∧ sampleFs.geometry.inodeTable 0 = 5 ∧
    sampleFs.geometry.firstDataBlock = 1 := by decide +kernel

theorem sampleFs_place {a : Area} (ha : sampleFs.geometry.Has a) :
    a = .blockBitmap 0 ∧ sampleFs.geometry.place a = 3 ∨
      a = .inodeBitmap 0 ∧ sampleFs.geometry.place a = 4 ∨
      ∃ j < 2, a = .inodeTable 0 j ∧ sampleFs.geometry.place a = 5 + j := by
  obtain ⟨hbb, hib, hit, -⟩ := sampleFs_geometry
  cases a with
  | blockBitmap group =>
    obtain rfl : group = 0 := Nat.lt_one_iff.mp ha
    exact .inl ⟨rfl, hbb⟩
  | inodeBitmap group =>
    obtain rfl : group = 0 := Nat.lt_one_iff.mp ha
    exact .inr (.inl ⟨rfl, hib⟩)
  | inodeTable group j =>
    obtain ⟨hgroup, hj⟩ := ha
    obtain rfl : group = 0 := Nat.lt_one_iff.mp hgroup
    have hj : j * 1024 < 16 * 128 := hj
    exact .inr (.inr ⟨j, by omega, rfl, by rw [Geometry.place, hit]⟩)

theorem sampleFs_sane : sampleFs.geometry.Sane where
  blockSize_pos := by decide
  four_dvd := by decide
  perGroup_pos := by decide
  perGroup_le := by decide
  inodes_pos := by decide
  inodes_le := by decide
  inodeSize_le := by decide
  inodeSize_dvd := by decide
  blocks_le := by decide +kernel
  inodes_lt := by decide
  table_le := by decide
  apart := by
    intro a a' ha ha' heq
    rcases sampleFs_place ha with ⟨rfl, h⟩ | ⟨rfl, h⟩ | ⟨j, hj, rfl, h⟩ <;>
      rcases sampleFs_place ha' with ⟨rfl, h'⟩ | ⟨rfl, h'⟩ | ⟨j', hj', rfl, h'⟩ <;>
      first | rfl | (exfalso; omega) | skip
    obtain rfl : j = j' := by omega
    rfl

theorem sampleFs_guarded {b : ℕ} (hb : sampleFs.geometry.Reserved b)
    (hrange : sampleFs.geometry.InRange b) : sampleFs.geometry.used sampleFs.device b = true := by
  rcases hb with rfl | ⟨a, ha, rfl⟩
  · have hlo := hrange.1
    rw [sampleFs_geometry.2.2.2] at hlo
    omega
  · rcases sampleFs_place ha with ⟨-, h⟩ | ⟨-, h⟩ | ⟨j, hj, -, h⟩
    · rw [h]
      decide +kernel
    · rw [h]
      decide +kernel
    · rw [h]
      interval_cases j <;> decide +kernel

theorem sampleFs_no_block {ino : ℕ} (hino : sampleFs.geometry.ValidIno ino) (k : Fin 15) :
    iBlock (sampleFs.geometry.inode sampleFs.device ino) k = 0 := by
  have hblank : ∀ ino < 17, ∀ k : Fin 15,
      iBlock (sampleFs.geometry.inode sampleFs.device ino) k = 0 := by decide +kernel
  have hgroup : (ino - 1) / 16 < 1 := hino.2
  exact hblank ino (by omega) k

theorem sampleFs_consistent : sampleFs.Consistent :=
  Ext4Fs.consistent_of_no_block sampleFs_sane (fun _ => sampleFs_guarded)
    fun _ hino => sampleFs_no_block hino.1

def nameA : Bytes := fun i => if i = 0 then 97 else 0

namespace Ext4

theorem blocks_owned_two_calls :
    ∃ s', Exec (fun s c s' => s.Gentle c ∧ s' = (s.call c).2) sample
      [.create 2 nameA 0x8000, .write 3 (fun _ => 1) 0 1] s' ∧ s'.fs.OwnsBlocks := by
  have hcreate : sample.Gentle (.create 2 nameA 0x8000) :=
    ⟨fun _ => by decide +kernel, .inl rfl⟩
  obtain ⟨s₁, hs₁⟩ : ∃ s₁, s₁ = (sample.call (.create 2 nameA 0x8000)).2 := ⟨_, rfl⟩
  have hwrite : s₁.Gentle (.write 3 (fun _ => 1) 0 1) := by
    have hafter : 3 ∈ s₁.fs.live ∧ s₁.kmallocs = [] := by
      rw [hs₁]
      decide +kernel
    exact ⟨fun _ => hafter.1, .inl hafter.2⟩
  have hrun : Exec (fun s c s' => s.Gentle c ∧ s' = (s.call c).2) sample
      [.create 2 nameA 0x8000, .write 3 (fun _ => 1) 0 1] _ :=
    .cons ⟨hcreate, hs₁⟩ (.cons ⟨hwrite, rfl⟩ (.nil _))
  exact ⟨_, hrun, blocks_owned sampleFs_consistent rfl hrun⟩

theorem truncate_keeps_pointer :
    sample.fs.Consistent ∧ sample.ios = [] ∧ sample.kmallocs = [] ∧
      ∃ s', Exec (fun s c s' => s' = (s.call c).2) sample
        [.create 2 nameA 0x8000, .write 3 (fun _ => 1) 0 1, .truncate 3 0] s' ∧
        ¬s'.fs.OwnsBlocks := by
  refine ⟨sampleFs_consistent, rfl, rfl, _, .cons rfl (.cons rfl (.cons rfl (.nil _))), ?_⟩
  generalize hs' : (Ext4.call _ _).2 = s'
  have hptr : s'.fs.geometry.ValidIno 3 ∧ iBlock (s'.inodeOf 3) 0 = 8 ∧
      ext4Inode.get (s'.inodeOf 3) 0 .linksCount ≠ 0 ∧
      s'.fs.geometry.used s'.fs.device 8 = false := by
    rw [← hs']
    decide +kernel
  obtain ⟨hvalid, hblock, hlinks, hfree⟩ := hptr
  intro howns
  have href : s'.fs.Refs (3, 0) [] 8 := .root ⟨⟨hvalid, hlinks⟩, hblock⟩ (by decide)
  have hused := (howns.used _ _ _ href).2
  rw [hfree] at hused
  cases hused

end Ext4

end GcAos.Fs
