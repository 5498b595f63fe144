import GcAos.Fs.Ext4Unwind

/-! `ext4_create_file` as a transaction. -/

namespace GcAos.Fs
open Lib Ext4 Draft

namespace Ext4

def linksOf (s : Ext4) (ino : ℕ) : ℕ := ext4Inode.get (s.inodeOf ino) 0 .linksCount

def IsDirectory (s : Ext4) (ino : ℕ) : Prop :=
  (s.fs.geometry.ValidIno ino ∧ s.linksOf ino ≠ 0) ∧
    ext4Inode.get (s.inodeOf ino) 0 .mode &&& ext4SIfdir ≠ 0

instance (s : Ext4) (ino : ℕ) : Decidable (s.IsDirectory ino) :=
  inferInstanceAs (Decidable ((_ ∧ _) ∧ _))

def namings (s : Ext4) (ino : ℕ) : ℕ :=
  ∑ dirIno ∈ (Finset.range (s.fs.groupCount * s.fs.inodesPerGroup + 1)).filter s.IsDirectory,
    (s.dirEntries dirIno).countP fun e => e.2 = ino

def InodeUsed (s : Ext4) (ino : ℕ) : Prop :=
  (s.fs.device (s.fs.getInodeBitmap ((ino - 1) / s.fs.inodesPerGroup))).bit
    ((ino - 1) % s.fs.inodesPerGroup) = true

structure Restores (s s' : Ext4) (parentIno : ℕ) : Prop where
  bitmaps : ∀ k group, group < s.fs.groupCount →
    s'.fs.device (BitmapKind.bitmap k s'.fs group) = s.fs.device (BitmapKind.bitmap k s.fs group)
  sb : s'.fs.sb = s.fs.sb
  groupDescs : s'.fs.groupDescs = s.fs.groupDescs
  entries : s'.dirEntries parentIno = s.dirEntries parentIno

/-- The directory `ino` has the entries `.` and `..`, and the link counts of both directories are
right. -/
structure MakesDirectory (s : Ext4) (ino parentIno : ℕ) : Prop where
  entries : (s.dirEntries ino).Perm [([46], ino), ([46, 46], parentIno)]
  links : s.linksOf ino = s.namings ino
  parentLinks : s.linksOf parentIno = s.namings parentIno

structure CreatesAtomically (s : Ext4) (parentIno : ℕ) (name : Bytes) (mode : ℕ) : Prop where
  fails : (s.createFile parentIno name mode).1 = -1 →
    s.Restores (s.createFile parentIno name mode).2 parentIno
  directory : 0 ≤ (s.createFile parentIno name mode).1 → mode &&& ext4SIfdir ≠ 0 →
    (s.createFile parentIno name mode).2.MakesDirectory
      (s.createFile parentIno name mode).1.toNat parentIno

def CreateUnwinds (s : Ext4) (parentIno : ℕ) (name : Bytes) (mode : ℕ) : Prop :=
  (s.allocBit .inode (s.inodeGroup parentIno)).1 = none ∨
    let (newIno, s) := s.allocInode (s.inodeGroup parentIno)
    0 ≤ newIno ∧
      let (ret, s) := s.writeInode newIno.toNat (newInode mode)
      if ret < 0 then (s.freeInode newIno.toNat).1 = 0
      else
        let fileType := if mode &&& ext4SIfdir ≠ 0 then 2 else 1
        let (ret, s') := s.addDirEntry parentIno name newIno.toNat fileType
        if ret < 0 then
          s.AddUnwinds parentIno name newIno.toNat fileType ∧ (s'.freeInode newIno.toNat).1 = 0
        else mode &&& ext4SIfdir = 0

/-! ## Other directories -/

section
variable {g : Geometry} {I L : Set ℕ} {D D' : Draft} {s s' : Ext4} {dirIno : ℕ}

theorem outside_of_refs {k : Fin 15} {p : List ℕ} {c : ℕ} (hs : Sound g L D) (hI : dirIno ∉ I)
    (hc : D.Refs g (dirIno, k) p c) : Outside g I D c where
  not_area a ha := hs.ne_place hc ha
  not_held hheld := hs.fresh c hheld _ _ hc
  used _ := (hs.data _ _ _ hc).used
  not_refs ino hino k' p' hr := by
    obtain ⟨hk, -⟩ := hs.owned hc hr
    obtain ⟨rfl, -⟩ := Prod.mk.inj hk
    exact hI hino

variable (hs : Sound g L D) (hD : D.fs = s.fs) (hdir : dirIno ∈ L) (hI : dirIno ∉ I)
  (hedits : DraftEdits g I D D') (hfs : D'.fs = s'.fs)
include hs hD hdir hI hedits hfs

theorem dirBlocks_of_edits : s'.dirBlocks dirIno = s.dirBlocks dirIno ∧
    ∀ c ∈ s.dirBlocks dirIno, s'.fs.device c = s.fs.device c := by
  have hgeo := geometry_eq hs hD
  have hgeo' := geometry_eq (hs.edits hedits) hfs
  have hvalid := hs.valid dirIno hdir
  have hroot : Geometry.Rooted D.root dirIno (s.inodeOf dirIno) := by
    rw [inodeOf, hgeo, ← hD]
    exact hs.table dirIno hdir
  have hdev {k : Fin 15} {p : List ℕ} {c : ℕ} (hc : D.Refs g (dirIno, k) p c) :
      s'.fs.device c = s.fs.device c := by
    rw [← hfs, ← hD]
    exact ((outside_of_refs hs hI hc).edits hs subset_rfl hedits).2
  have hinode : ∀ i < ext4Inode.size, s'.inodeOf dirIno i = s.inodeOf dirIno i := by
    rw [inodeOf, inodeOf, hgeo, hgeo', ← hfs, ← hD]
    exact hs.inode_edits hedits hvalid hI
  have hmap (fb : ℕ) : g.fileBlock s'.fs.device (s'.inodeOf dirIno) fb =
      g.fileBlock s.fs.device (s.inodeOf dirIno) fb := by
    rw [Geometry.fileBlock_inode_congr fun k => Geometry.iBlock_congr hinode]
    apply Geometry.fileBlock_congr hroot
    intro k p c hc _
    rw [← hD] at hc
    exact hdev hc
  have hsize : s'.sizeOf dirIno = s.sizeOf dirIno := Geometry.field_congr hinode
  have hbs : s'.fs.blockSize = s.fs.blockSize :=
    congrArg Geometry.blockSize (hgeo'.trans hgeo.symm)
  refine ⟨?_, fun c hc => ?_⟩
  · rw [dirBlocks, dirBlocks, hsize, blocksIn, blocksIn, hbs, hgeo, hgeo', funext hmap]
  · obtain ⟨hne, fb, -, rfl⟩ := mem_dirBlocks.mp hc
    rw [hgeo, ← hD] at hne
    have hkept := hdev (Geometry.refs_fileBlock hroot hs.sane hne)
    rw [hD] at hkept
    rw [hgeo]
    exact hkept

theorem dirEntries_of_edits : s'.dirEntries dirIno = s.dirEntries dirIno ∧
    (s.DirWellFormed dirIno → s'.DirWellFormed dirIno) := by
  obtain ⟨hblocks, hdev⟩ := dirBlocks_of_edits hs hD hdir hI hedits hfs
  have hbs : s'.fs.blockSize = s.fs.blockSize := congrArg Geometry.blockSize
    ((geometry_eq (hs.edits hedits) hfs).trans (geometry_eq hs hD).symm)
  refine ⟨?_, fun hwf c hc => ?_⟩
  · rw [dirEntries, dirEntries, hblocks]
    exact List.flatMap_congr fun c hc => by rw [hdev c hc, hbs]
  · rw [hblocks] at hc
    rw [hdev c hc, hbs]
    exact hwf c hc

end

/-! ## The new inode -/

theorem inode_index {g : Geometry} {ino group index : ℕ} (hg : g.Sane) (hindex : index < g.inodesPerGroup)
    (hino : ino = group * g.inodesPerGroup + index + 1) :
    (ino - 1) / g.inodesPerGroup = group ∧ (ino - 1) % g.inodesPerGroup = index := by
  rw [hino, Nat.add_sub_cancel, Nat.mul_comm, Nat.mul_add_div hg.inodes_pos, Nat.mul_add_mod,
    Nat.div_eq_of_lt hindex, Nat.mod_eq_of_lt hindex]
  exact ⟨rfl, rfl⟩

/-- In `s'` the inode `ino` is taken, for the bit `index` of `group`, and it may be written. -/
structure TakesInode (g : Geometry) (D D' : Draft) (s s' : Ext4) (ino group index : ℕ) : Prop where
  free : s.fs.FreeBit .inode group index
  number : ino = group * g.inodesPerGroup + index + 1
  valid : g.ValidIno ino
  edits : DraftEdits g {ino} D D'
  fs : D'.fs = s'.fs
  held : ((ino - 1) / g.inodesPerGroup, (ino - 1) % g.inodesPerGroup) ∈ D'.inodes
  records : Ext4Fs.SameRecords (s.fs.takeBit .inode group index) s'.fs

section
variable {g : Geometry} {L : Set ℕ} {D : Draft} {s s₁ s₂ : Ext4} {preferred mode : ℕ} {n ret : ℤ}
  (hs : Sound g L D) (hD : D.fs = s.fs)
include hs hD

theorem allocInode_writes (halloc : s.allocInode preferred = (n, s₁)) (hn : 0 ≤ n)
    (hwrite : s₁.writeInode n.toNat (newInode mode) = (ret, s₂)) :
    ∃ D₂ group index, TakesInode g D D₂ s s₂ n.toNat group index ∧
      (ret < 0 ∨ ret = 0 ∧ Sound g (insert n.toNat L) D₂ ∧
        ∀ j < ext4Inode.size, g.inode s₂.fs.device n.toNat j = newInode mode j) := by
  have hgeo := geometry_eq hs hD
  obtain ⟨-, group, index, hfree, htake, hn'⟩ :=
    (allocInode_ends hgeo hs.sane halloc).resolve_left fun hnone => not_lt.mpr hn hnone.2.1
  have hnumber := (hn'.resolve_left (not_lt.mpr hn)).2
  generalize n.toNat = ino at hwrite hnumber
  have hgroup : group < g.groupCount := hgeo ▸ hfree.group_lt
  have hindex : index < g.inodesPerGroup := hgeo ▸ hfree.index_lt
  have hclear : (D.fs.device (g.inodeBitmap group)).bit index = false := by
    rw [hD, ← hgeo]
    exact hfree.clear
  obtain ⟨hdiv, hmod⟩ := inode_index hs.sane hindex hnumber
  have hvalid : g.ValidIno ino := ⟨by omega, by rw [hdiv]; exact hgroup⟩
  have htaken : Work g ino D _ := .takeInode hgroup hindex hclear
  have hs₁ := hs.work htaken
  have hfs₁ : D.fs.takeBit .inode group index = s₁.fs := by rw [htake, hD]
  have hgeo₁ : s₁.fs.geometry = g := by rw [htake, Ext4Fs.geometry_takeBit, hgeo]
  have hheld : ((ino - 1) / g.inodesPerGroup, (ino - 1) % g.inodesPerGroup) ∈
      insert (group, index) D.inodes := by
    rw [hdiv, hmod]
    exact Finset.mem_insert_self _ _
  rcases (writeInode_eq hgeo₁ hwrite).2 with ⟨rfl, hsame, -⟩ | ⟨rfl, -, hput⟩
  · refine ⟨_, group, index,
      { free := hfree
        number := hnumber
        valid := hvalid
        edits := .single ⟨ino, rfl, .work htaken⟩
        fs := hfs₁.trans hsame.symm
        held := hheld
        records := ?_ }, .inl (by decide)⟩
    rw [hsame, ← htake]
    exact .refl _
  · obtain ⟨hedit, hs₂⟩ := sound_newInode hs₁ hvalid mode
    have hfs₂ : (D.fs.takeBit .inode group index).putInode ino (newInode mode) = s₂.fs := by
      rw [hput, hfs₁]
    refine ⟨_, group, index,
      { free := hfree
        number := hnumber
        valid := hvalid
        edits := .tail (.single ⟨ino, rfl, .work htaken⟩) ⟨ino, rfl, hedit⟩
        fs := hfs₂
        held := hheld
        records := ?_ }, .inr ⟨rfl, hs₂, fun j hj => ?_⟩⟩
    · rw [hput, ← htake]
      subst hgeo₁
      exact .putInode hs.sane hvalid
    · rw [hput]
      exact Ext4Fs.inode_putInode_self hgeo₁ hs.sane hj

end

/-! ## A create that fails -/

section
variable {s s' : Ext4} {parent : ℕ}

theorem restores_of_same (hsame : Ext4Fs.SameRecords s.fs s'.fs)
    (hentries : s'.dirEntries parent = s.dirEntries parent) : s.Restores s' parent := by
  refine ⟨fun k group hgroup => ?_, ?_, ?_, hentries⟩
  · rw [Ext4Fs.bitmap_congr hsame.geometry]
    exact hsame.bitmaps k group hgroup
  · rw [hsame.rest]
  · rw [hsame.rest]

theorem Restores.super_eq (h : s.Restores s' parent) (f : SuperField) :
    s'.fs.super f = s.fs.super f := by
  rw [Ext4Fs.super, Ext4Fs.super, h.sb]

theorem freeInode_blocks (s : Ext4) (ino : ℕ) :
    (s.freeInode ino).2.fs.super .freeBlocksCountLo = s.fs.super .freeBlocksCountLo := by
  rcases h : s.freeInode ino with ⟨r, s'⟩
  unfold freeInode at h
  split at h
  · cases h
    rfl
  · rcases (freeBit_eq h).2 with ⟨hsame, -⟩ | ⟨-, -, hdrop⟩
    · rw [hsame]
    · rw [hdrop]
      exact Ext4Fs.superFree_dropBit_of_ne (show BitmapKind.block ≠ .inode by decide)

theorem addDirEntry_ret {g : Geometry} {L : Set ℕ} {D : Draft} {dirIno ino fileType : ℕ} {name : Bytes}
    {r : ℤ} (hs : Sound g L D) (hD : D.fs = s.fs) (hdir : dirIno ∈ L)
    (h : s.addDirEntry dirIno name ino fileType = (r, s')) : r < 0 ∨ r = 0 := by
  have hgeo := geometry_eq hs hD
  rcases addDirEntry_steps (hgeo ▸ hs.sane) h with ⟨rfl, -⟩ | ⟨hret, -⟩ | ⟨-, s₁, hfs₁, -, happend⟩
  · exact .inl (by decide)
  · exact .inr hret
  · have hroot : Geometry.Rooted D.root dirIno (s₁.inodeOf dirIno) := by
      rw [inodeOf, hfs₁, hgeo, ← hD]
      exact hs.table dirIno hdir
    obtain ⟨_, _, -, -, hends⟩ := appendDirBlock_ends hs (hD.trans hfs₁.symm)
      (Set.mem_singleton dirIno) hroot happend
    exact hends.imp And.left And.left

section
variable {g : Geometry} {L : Set ℕ} {D D₂ D₃ : Draft} {s₂ s₃ : Ext4} {ino group index : ℕ} {ret : ℤ}
  (hs : Sound g L D) (hD : D.fs = s.fs) (hparent : parent ∈ L)
include hs hD

theorem TakesInode.ne (h : TakesInode g D D₂ s s₂ ino group index) (hused : s.InodeUsed parent) :
    parent ≠ ino := by
  rintro rfl
  have hgeo := geometry_eq hs hD
  have hindex : index < g.inodesPerGroup := hgeo ▸ h.free.index_lt
  obtain ⟨hdiv, hmod⟩ := inode_index hs.sane hindex h.number
  have hper : s.fs.inodesPerGroup = g.inodesPerGroup := congrArg Geometry.inodesPerGroup hgeo
  have hset : (s.fs.device (s.fs.getInodeBitmap group)).bit index = true := by
    rw [InodeUsed, hper, hdiv, hmod] at hused
    exact hused
  have hclear : (s.fs.device (s.fs.getInodeBitmap group)).bit index = false := h.free.clear
  rw [hset] at hclear
  cases hclear

include hparent

theorem freeInode_ends (h : TakesInode g D D₂ s s₂ ino group index) (hne : parent ≠ ino)
    (hedits : DraftEdits g {ino} D₂ D₃) (hfs : D₃.fs = s₃.fs) (hinodes : D₃.inodes = D₂.inodes)
    (hsame : Ext4Fs.SameRecords s₂.fs s₃.fs) (hfree : s₃.freeInode ino = (ret, s')) :
    ret = 0 ↔ s.Restores s' parent := by
  have hgeo := geometry_eq hs hD
  have hedits₃ := Relation.ReflTransGen.trans h.edits hedits
  have hs₃ := hs.edits hedits₃
  obtain ⟨-, D₄, hedits₄, hfs₄⟩ :=
    freeInode_edits hs₃ hfs (Set.mem_singleton ino) (hinodes ▸ h.held) hfree
  have hentries := (dirEntries_of_edits hs hD hparent hne
    (Relation.ReflTransGen.trans hedits₃ hedits₄) hfs₄).1
  have hnumber := h.number
  rw [hnumber] at hfree
  rcases freeInode_bracket hgeo hs.sane h.free (h.records.trans hsame) hfree with
    ⟨hret, hback⟩ | ⟨hret, hcount⟩
  · exact iff_of_true hret (restores_of_same hback hentries)
  · exact iff_of_false hret fun hrestores => hcount (hrestores.super_eq _)

end

theorem createFile_cases {name : Bytes} {mode : ℕ} {r : ℤ} (hs : s.fs.Consistent)
    (hparent : parent ∈ s.fs.live) (hused : s.InodeUsed parent)
    (h : s.createFile parent name mode = (r, s')) :
    r = -1 ∧ (s.CreateUnwinds parent name mode ↔ s.Restores s' parent) ∨
      0 ≤ r ∧ (s.CreateUnwinds parent name mode ↔ mode &&& ext4SIfdir = 0) ∧
      ∃ s₂ s₃ D₂ group index, TakesInode s.fs.geometry
          (closed s.fs.geometry s.fs.live s.fs) D₂ s s₂ r.toNat group index ∧
        Sound s.fs.geometry (insert r.toNat s.fs.live) D₂ ∧
        (∀ j < ext4Inode.size, s₂.inodeOf r.toNat j = newInode mode j) ∧
        s₂.addDirEntry parent name r.toNat (if mode &&& ext4SIfdir ≠ 0 then 2 else 1) = (0, s₃) ∧
        (mode &&& ext4SIfdir ≠ 0 → s' = s₃.fillDir r.toNat parent) := by
  unfold createFile at h
  unfold CreateUnwinds
  rcases halloc : s.allocInode (s.inodeGroup parent) with ⟨n, s₁⟩
  rw [halloc] at h
  dsimp only at h ⊢
  have hends := allocInode_ends rfl hs.sane halloc
  by_cases hpos : n < 0
  · rw [if_pos hpos] at h
    cases h
    refine .inl ⟨rfl, ?_⟩
    rcases hends with ⟨hno, -, hsame⟩ | ⟨hyes, group, index, -, htake, -⟩
    · refine iff_of_true (.inl hno) (restores_of_same (.of_eq hsame) ?_)
      exact (dirEntries_of_edits (I := ∅) hs rfl hparent id .refl hsame.symm).1
    · -- the number is negative, and the inode is lost
      refine iff_of_false (fun hcond => ?_) fun hrestores => ?_
      · exact not_lt.mpr (hcond.resolve_left hyes).1 hpos
      · have hcount := hrestores.super_eq .freeInodesCount
        rw [htake] at hcount
        exact Ext4Fs.superFree_takeBit_ne s.fs .inode group index hcount
  obtain ⟨hyes, -⟩ := hends.resolve_left fun hnone => hpos hnone.2.1
  rw [if_neg hpos] at h
  rw [or_iff_right hyes, and_iff_right (not_lt.mp hpos)]
  rcases hwrite : s₁.writeInode n.toNat (newInode mode) with ⟨ret, s₂⟩
  obtain ⟨D₂, group, index, htakes, hwritten⟩ :=
    allocInode_writes hs rfl halloc (not_lt.mp hpos) hwrite
  have hne := htakes.ne hs rfl hused
  rw [hwrite] at h
  dsimp only at h ⊢
  by_cases hret : ret < 0
  · rw [if_pos hret] at h ⊢
    cases h
    exact .inl ⟨rfl, freeInode_ends hs rfl hparent htakes hne .refl htakes.fs rfl (.refl _) rfl⟩
  rw [if_neg hret] at h ⊢
  obtain ⟨-, hs₂, hinode⟩ := hwritten.resolve_left hret
  have hgeo₂ := geometry_eq hs₂ htakes.fs
  generalize hft : (if mode &&& ext4SIfdir ≠ 0 then 2 else 1) = fileType at h ⊢
  rcases hadd : s₂.addDirEntry parent name n.toNat fileType with ⟨ret', s₃⟩
  rw [hadd] at h
  dsimp only at h ⊢
  by_cases hret' : ret' < 0
  · rw [if_pos hret'] at h ⊢
    cases h
    refine .inl ⟨rfl, ?_⟩
    rcases addDirEntry_fails hs₂ htakes.fs (Set.mem_singleton n.toNat) hadd hret' with
      ⟨hunwinds, hsame, D₃, hedits₃, hfs₃, hinodes₃⟩ | ⟨hkeeps, hcount⟩
    · rw [and_iff_right hunwinds]
      exact freeInode_ends hs rfl hparent htakes hne hedits₃ hfs₃ hinodes₃ hsame rfl
    · refine iff_of_false (fun hcond => hkeeps hcond.1) fun hrestores => hcount ?_
      have htaken : s₂.fs.super .freeBlocksCountLo = s.fs.super .freeBlocksCountLo :=
        (htakes.records.super_eq _).trans
          (Ext4Fs.superFree_takeBit_of_ne (show BitmapKind.block ≠ .inode by decide))
      rw [htaken, ← hrestores.super_eq]
      exact (freeInode_blocks s₃ n.toNat).symm
  · rw [if_neg hret'] at h ⊢
    obtain rfl := (addDirEntry_ret hs₂ htakes.fs (Set.mem_insert_of_mem _ hparent) hadd).resolve_left hret'
    split at h
    · next hdir =>
      cases h
      refine .inr ⟨not_lt.mp hpos, Iff.rfl, s₂, s₃, D₂, group, index, htakes, hs₂, ?_, hadd, fun _ => rfl⟩
      rw [inodeOf, hgeo₂]
      exact hinode
    · next hfile =>
      cases h
      refine .inr ⟨not_lt.mp hpos, Iff.rfl, s₂, _, D₂, group, index, htakes, hs₂, ?_, hadd,
        fun hdir => absurd hdir hfile⟩
      rw [inodeOf, hgeo₂]
      exact hinode

end

end Ext4

end GcAos.Fs
