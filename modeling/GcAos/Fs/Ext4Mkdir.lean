import GcAos.Fs.Ext4Create

/-! The directories that `ext4_create_file` makes. -/

namespace GcAos.Fs
open Lib Ext4 Draft

theorem Geometry.Data.putInode {g : Geometry} {fs : Ext4Fs} {ino b : ℕ} {v : Bytes} (hg : g.Sane)
    (hfs : fs.geometry = g) (hino : g.ValidIno ino) (h : g.Data fs.device b) :
    g.Data (fs.putInode ino v).device b := by
  refine h.of_used fun hused => ?_
  rw [Ext4Fs.device_putInode hfs hg,
    hg.used_update (hg.has_inodeArea hino) (fun _ => Area.noConfusion) h.inRange]
  exact hused

theorem Ext4Fs.device_putInode_of_not_reserved {g : Geometry} {fs : Ext4Fs} {ino b : ℕ} {v : Bytes}
    (hg : g.Sane) (hfs : fs.geometry = g) (hino : g.ValidIno ino) (hb : ¬g.Reserved b) :
    (fs.putInode ino v).device b = fs.device b := by
  rw [Ext4Fs.device_putInode hfs hg]
  apply Function.update_of_ne
  rintro rfl
  exact hb (Geometry.reserved_place (hg.has_inodeArea hino))

theorem Geometry.Sane.ino_le {g : Geometry} {ino : ℕ} (hg : g.Sane) (hino : g.ValidIno ino) :
    ino ≤ g.groupCount * g.inodesPerGroup := by
  have hlt := (Nat.div_lt_iff_lt_mul hg.inodes_pos).mp hino.2
  omega

theorem Geometry.KeepsFields.trans {g : Geometry} {device device' device'' : ℕ → Bytes}
    (h : g.KeepsFields device device') (h' : g.KeepsFields device' device'') :
    g.KeepsFields device device'' := fun i hi f hsize hblocks hptr =>
  (h' i hi f hsize hblocks hptr).trans (h i hi f hsize hblocks hptr)

namespace Ext4

variable {s s' : Ext4} {dirIno : ℕ}

/-- The directory has a block with an entry for `ino`, and it is found as long as the data blocks of
today keep their content. -/
def Enters (s : Ext4) (dirIno ino : ℕ) : Prop :=
  ∃ fb < s.blocksIn (s.sizeOf dirIno), ∃ c, s.fs.geometry.Data s.fs.device c ∧
    (∃ e ∈ entries (s.fs.device c) s.fs.blockSize, e.2 = ino) ∧
    ∀ device v, (∀ d, s.fs.geometry.Data s.fs.device d → device d = s.fs.device d) →
      (∀ k, iBlock v k = iBlock (s.inodeOf dirIno) k) → s.fs.geometry.fileBlock device v fb = c

theorem Enters.mem {ino : ℕ} (h : s.Enters dirIno ino) (hgeo : s'.fs.geometry = s.fs.geometry)
    (hdata : ∀ d, s.fs.geometry.Data s.fs.device d → s'.fs.device d = s.fs.device d)
    (hsize : s'.sizeOf dirIno = s.sizeOf dirIno)
    (hptr : ∀ k, iBlock (s'.inodeOf dirIno) k = iBlock (s.inodeOf dirIno) k) :
    ∃ e ∈ s'.dirEntries dirIno, e.2 = ino := by
  obtain ⟨fb, hfb, c, hc, ⟨e, he, hino⟩, hpath⟩ := h
  have hbs : s'.fs.blockSize = s.fs.blockSize := congrArg Geometry.blockSize hgeo
  refine ⟨e, List.mem_flatMap.mpr ⟨c, mem_dirBlocks.mpr ⟨?_, fb, ?_, ?_⟩, ?_⟩, hino⟩
  · exact fun hz => hc.not_reserved (.inl hz)
  · rw [hsize, blocksIn, hbs]
    exact hfb
  · rw [hgeo]
    exact hpath _ _ hdata hptr
  · rw [hdata c hc, hbs]
    exact he

section
variable {g : Geometry} {L : Set ℕ} {D : Draft} {ino fileType : ℕ} {name : Bytes} {r : ℤ}
  (hs : Sound g L D) (hD : D.fs = s.fs) (hdir : dirIno ∈ L)
include hs hD hdir

theorem rooted_of_mem : Geometry.Rooted D.root dirIno (s.inodeOf dirIno) := by
  rw [inodeOf, geometry_eq hs hD, ← hD]
  exact hs.table dirIno hdir

theorem leaf_of_dirBlocks {c : ℕ} (hc : c ∈ s.dirBlocks dirIno) : D.Leaf g dirIno c := by
  obtain ⟨hne, fb, -, hfb⟩ := mem_dirBlocks.mp hc
  rw [geometry_eq hs hD] at hfb
  rw [← hfb] at hne ⊢
  exact leaf_fileBlock hs (congrArg Ext4Fs.device hD.symm) (rooted_of_mem hs hD hdir) hne

theorem enters_of_mem {e : List UInt8 × ℕ} (he : e ∈ s.dirEntries dirIno) : s.Enters dirIno e.2 := by
  have hgeo := geometry_eq hs hD
  have hroot := rooted_of_mem hs hD hdir
  obtain ⟨c, hc, hmem⟩ := List.mem_flatMap.mp he
  obtain ⟨hne, fb, hfb, rfl⟩ := mem_dirBlocks.mp hc
  rw [Enters, hgeo, ← hD]
  rw [hgeo, ← hD] at hne hmem
  refine ⟨fb, hfb, _, hs.data _ _ _ (Geometry.refs_fileBlock hroot hs.sane hne), ⟨e, hmem, rfl⟩,
    fun device v hdev hptr => ?_⟩
  rw [Geometry.fileBlock_inode_congr hptr]
  exact Geometry.fileBlock_congr hroot fun k p d hd _ => hdev d (hs.data _ _ _ hd)

theorem addDirEntry_others (h : s.addDirEntry dirIno name ino fileType = (r, s')) :
    g.KeepsFields s.fs.device s'.fs.device ∧
      (∀ i, g.ValidIno i → i ≠ dirIno → ∀ j < ext4Inode.size,
        g.inode s'.fs.device i j = g.inode s.fs.device i j) ∧
      ∀ L' ⊆ L, dirIno ∉ L' → ∃ D', Sound g L' D' ∧ D'.fs = s'.fs := by
  have hgeo := geometry_eq hs hD
  have hsame (hfs : s'.fs = s.fs) : g.KeepsFields s.fs.device s'.fs.device ∧
      (∀ i, g.ValidIno i → i ≠ dirIno → ∀ j < ext4Inode.size,
        g.inode s'.fs.device i j = g.inode s.fs.device i j) ∧
      ∀ L' ⊆ L, dirIno ∉ L' → ∃ D', Sound g L' D' ∧ D'.fs = s'.fs := by
    rw [hfs]
    exact ⟨fun _ _ _ _ _ _ => rfl, fun _ _ _ _ _ => rfl, fun L' hsub _ => ⟨D, hs.anti hsub, hD⟩⟩
  rcases addDirEntry_steps (hgeo ▸ hs.sane) h with
    ⟨-, hfs⟩ | ⟨-, -, c, hc, o, -, hput⟩ | ⟨-, s₁, hfs₁, -, happend⟩
  · exact hsame hfs
  · have hleaf := leaf_of_dirBlocks hs hD hdir hc
    have hres : ¬g.Reserved c := by
      obtain ⟨k, p, hr, -⟩ := hleaf
      exact (hs.data _ _ _ hr).not_reserved
    have hinode (i : ℕ) (hi : g.ValidIno i) : g.inode s'.fs.device i = g.inode s.fs.device i := by
      rw [hput]
      exact Draft.Sound.inode_putBlock hs.sane hres hi
    refine ⟨.of_inode hinode, fun i hi _ j _ => by rw [hinode i hi], fun L' hsub _ => ?_⟩
    have hs' : Sound g L { D with
        fs := D.fs.putBlock c (splitEntry (s.fs.device c) o ino fileType name) } := hs.write (.inr hleaf)
    exact ⟨_, hs'.anti hsub, by rw [hput, ← hD]⟩
  · have hroot : Geometry.Rooted D.root dirIno (s₁.inodeOf dirIno) :=
      rooted_of_mem hs (hD.trans hfs₁.symm) hdir
    obtain ⟨s₂, D₂, hmakes, -, hends⟩ := appendDirBlock_ends hs (hD.trans hfs₁.symm)
      (Set.mem_singleton dirIno) hroot happend
    have hs₂ := hs.edits hmakes.edits
    have hinode := hmakes.inode
    rw [hfs₁] at hinode
    rcases hends with ⟨-, hfs⟩ | ⟨-, v', b, happ⟩
    · rw [hfs]
      exact ⟨.of_inode hinode, fun i hi _ j _ => by rw [hinode i hi],
        fun L' hsub _ => ⟨D₂, hs₂.anti hsub, hmakes.fs⟩⟩
    · rw [happ.put]
      have hother (i : ℕ) (hi : g.ValidIno i) (hne : i ≠ dirIno) : ∀ j < ext4Inode.size,
          g.inode (s₂.fs.putInode dirIno v').device i j = g.inode s.fs.device i j := by
        intro j hj
        rw [Ext4Fs.inode_putInode_of_ne happ.geometry hs.sane happ.valid hi hne hj, hinode i hi]
      refine ⟨fun i hi f hsize hblocks hptr => ?_, hother, fun L' hsub hnot => ?_⟩
      · by_cases hsame : i = dirIno
        · subst hsame
          rw [Geometry.field_congr fun j hj => Ext4Fs.inode_putInode_self happ.geometry hs.sane hj,
            happ.fields f hsize hblocks hptr, inodeOf, hfs₁, hgeo]
        · exact Geometry.field_congr (hother i hi hsame)
      · refine ⟨_, (hs₂.anti hsub).putInode (v := v') happ.valid fun hmem => absurd hmem hnot, ?_⟩
        rw [hmakes.fs]

end

theorem Appends.enters {g : Geometry} {s₁ : Ext4} {v v' blk : Bytes} {b ino : ℕ} (hg : g.Sane)
    (hgeo : s.fs.geometry = g) (happ : Appends g s s₁ s' dirIno v v' blk b)
    (hsmall : g.blockSize < 2 ^ 16) (hblk : WellFormed blk g.blockSize)
    (he : ∃ e ∈ entries blk g.blockSize, e.2 = ino) : s'.Enters dirIno ino := by
  have hbs : s.fs.blockSize = g.blockSize := congrArg Geometry.blockSize hgeo
  have hgeo' : s'.fs.geometry = g := by
    rw [happ.put, Ext4Fs.geometry_putInode, happ.geometry]
  have hbs' : s'.fs.blockSize = g.blockSize := congrArg Geometry.blockSize hgeo'
  have hblocks (n : ℕ) : s'.blocksIn n = s.blocksIn n := by rw [blocksIn, blocksIn, hbs', hbs]
  have hinode : ∀ j < ext4Inode.size, s'.inodeOf dirIno j = v' j := by
    intro j hj
    rw [inodeOf, hgeo', happ.put]
    exact Ext4Fs.inode_putInode_self happ.geometry hg hj
  have hdata (d : ℕ) (hd : g.Data s₁.fs.device d) :
      g.Data s'.fs.device d ∧ s'.fs.device d = s₁.fs.device d := by
    rw [happ.put]
    exact ⟨hd.putInode hg happ.geometry happ.valid,
      Ext4Fs.device_putInode_of_not_reserved hg happ.geometry happ.valid hd.not_reserved⟩
  obtain ⟨hb, hbdev⟩ := hdata b happ.block
  have hlt : ext4Inode.get v 0 .sizeLo + s.fs.blockSize < 2 ^ 32 := by
    subst hgeo
    exact size_lt_of_reach hg hsmall happ.reach
  have hsize : s'.sizeOf dirIno = ext4Inode.get v 0 .sizeLo + s.fs.blockSize := by
    rw [hbs] at hlt ⊢
    exact (Geometry.field_congr hinode).trans (happ.size.trans (Nat.mod_eq_of_lt hlt))
  refine ⟨s.blocksIn (ext4Inode.get v 0 .sizeLo), ?_, b, hgeo' ▸ hb, ?_, fun device w hdev hptr => ?_⟩
  · have hsucc := blocksIn_add (s := s) (hbs ▸ hg.blockSize_pos) (ext4Inode.get v 0 .sizeLo)
    rw [hsize, hblocks, hsucc]
    exact Nat.lt_succ_self _
  · have hread : ∀ i < g.blockSize, s'.fs.device b i = blk i := by
      rw [hbdev]
      exact happ.new
    rw [hbs', (hblk.congr hread).2]
    exact he
  · rw [hgeo'] at hdev ⊢
    have hat := happ.map s₁.fs.device (fun _ _ => rfl) _ (.inr (.inl rfl))
    rw [if_pos rfl] at hat
    rw [Geometry.fileBlock_inode_congr fun k => (hptr k).trans (Geometry.iBlock_congr hinode)]
    rcases Nat.lt_or_ge (s.blocksIn (ext4Inode.get v 0 .sizeLo)) ext4NdirBlocks with hdir | hdir
    · rw [Geometry.fileBlock_direct hdir] at hat ⊢
      exact hat
    · have hin : s.blocksIn (ext4Inode.get v 0 .sizeLo) - ext4NdirBlocks < g.shape.arity := by
        have hreach := happ.reach
        omega
      obtain ⟨hind, hinddev⟩ := hdata _ (happ.indirect hdir)
      rw [Geometry.fileBlock_single hdir hin] at hat ⊢
      rw [hdev _ hind, hinddev]
      exact hat

theorem addDirEntry_enters {ino fileType : ℕ} {name : Bytes} (hs : s.fs.Consistent)
    (hdir : dirIno ∈ s.fs.live) (hwf : s.DirWellFormed dirIno) (hino : ino < 2 ^ 32)
    (hle : 264 ≤ s.fs.blockSize) (hroom : s.FindsRoom dirIno name ∨ s.fs.blockSize < 2 ^ 16)
    (h : s.addDirEntry dirIno name ino fileType = (0, s')) : s'.Enters dirIno ino := by
  rcases addDirEntry_steps hs.sane h with
    ⟨hret, -⟩ | ⟨-, -, c, hc, o, ho, hput⟩ | ⟨hnone, s₁, hfs₁, -, happend⟩
  · cases hret
  · obtain ⟨-, l₁, l₂, -, hentries⟩ := addsEntry_of_split hs hdir hwf hino hc ho hput
    have hs' : Sound s.fs.geometry s.fs.live { closed s.fs.geometry s.fs.live s.fs with
        fs := s.fs.putBlock c (splitEntry (s.fs.device c) o ino fileType name) } :=
      hs.write (.inr (leaf_of_dirBlocks hs rfl hdir hc))
    have hmem : ((List.range (nameLength name)).map name, ino) ∈ s'.dirEntries dirIno := by
      rw [hentries]
      exact List.mem_append_right _ (List.mem_cons_self ..)
    exact enters_of_mem hs' hput.symm hdir hmem
  · have hsmall := hroom.resolve_left hnone
    have hroot := rooted_of_mem hs hfs₁.symm hdir
    obtain ⟨s₂, _, -, -, ⟨hneg, -⟩ | ⟨-, v', b, happ⟩⟩ := appendDirBlock_ends hs hfs₁.symm
      (Set.mem_singleton dirIno) hroot happend
    · exact absurd hneg (lt_irrefl 0)
    obtain ⟨hblk, hentries⟩ :=
      putEntry_wellFormed (fun _ => 0) name fileType hino hle hs.sane.four_dvd hsmall
    refine happ.enters hs.sane (congrArg Ext4Fs.geometry hfs₁) hsmall hblk
      ⟨((List.range (nameLength name)).map name, ino), ?_, rfl⟩
    exact hentries ▸ List.mem_singleton_self _

/-! ## Blocks too large for `rec_len` -/

theorem records_eq_nil {blk : Bytes} {blockSize : ℕ} (h : recLen blk 0 = 0) :
    records blk blockSize = [] := by
  rw [records]
  cases blockSize with
  | zero => rfl
  | succ n => rw [recordsFrom, if_pos (Nat.succ_pos n), if_pos h]

/-- A directory of at most `n` blocks, each of which starts with a record of length 0. -/
structure Blank (s : Ext4) (ino n : ℕ) : Prop where
  size : s.sizeOf ino ≤ n * s.fs.blockSize
  blocks : ∀ c ∈ s.dirBlocks ino, recLen (s.fs.device c) 0 = 0

namespace Blank

variable {ino n : ℕ}

theorem dirEntries_eq_nil (h : Blank s ino n) : s.dirEntries ino = [] := by
  rw [dirEntries, List.flatMap_eq_nil_iff]
  intro c hc
  rw [entries, records_eq_nil (h.blocks c hc)]
  rfl

theorem of_fs {s₁ : Ext4} (h : Blank s ino n) (hfs : s₁.fs = s.fs) : Blank s₁ ino n := by
  obtain ⟨fs, kmallocs, ios⟩ := s
  obtain ⟨fs₁, kmallocs₁, ios₁⟩ := s₁
  obtain rfl : fs₁ = fs := hfs
  exact ⟨h.size, h.blocks⟩

theorem mono {m : ℕ} (h : Blank s ino n) (hnm : n ≤ m) : Blank s ino m :=
  ⟨h.size.trans (Nat.mul_le_mul_right _ hnm), h.blocks⟩

theorem blocksIn_le (h : Blank s ino n) (hpos : 0 < s.fs.blockSize) : s.blocksIn (s.sizeOf ino) ≤ n := by
  have hsize := h.size
  rw [← Nat.lt_succ_iff, blocksIn, Nat.div_lt_iff_lt_mul hpos, Nat.succ_mul]
  omega

theorem congr (h : Blank s ino n) (hn : n ≤ ext4NdirBlocks) (hpos : 0 < s.fs.blockSize)
    (hgeo : s'.fs.geometry = s.fs.geometry) (hsize : s'.sizeOf ino = s.sizeOf ino)
    (hptr : ∀ k, iBlock (s'.inodeOf ino) k = iBlock (s.inodeOf ino) k)
    (hdev : ∀ c ∈ s.dirBlocks ino, s'.fs.device c = s.fs.device c) : Blank s' ino n := by
  have hbs : s'.fs.blockSize = s.fs.blockSize := congrArg Geometry.blockSize hgeo
  refine ⟨by rw [hsize, hbs]; exact h.size, fun c hc => ?_⟩
  obtain ⟨hne, fb, hfb, hmap⟩ := mem_dirBlocks.mp hc
  rw [hsize, blocksIn, hbs, ← blocksIn] at hfb
  have hdir : fb < ext4NdirBlocks := hfb.trans_le ((h.blocksIn_le hpos).trans hn)
  rw [Geometry.fileBlock_direct hdir, hptr] at hmap
  have hmem : c ∈ s.dirBlocks ino := by
    refine mem_dirBlocks.mpr ⟨hne, fb, hfb, ?_⟩
    rw [Geometry.fileBlock_direct hdir]
    exact hmap
  rw [hdev c hmem]
  exact h.blocks c hmem

theorem append {g : Geometry} {s₁ : Ext4} {v' name : Bytes} {b child fileType : ℕ} (h : Blank s ino n)
    (hg : g.Sane) (hgeo : s.fs.geometry = g) (hn : n < ext4NdirBlocks)
    (hwrap : g.blockSize % 2 ^ 16 = 0) (hle : 8 ≤ g.blockSize)
    (hold : ∀ c ∈ s.dirBlocks ino, ¬g.Reserved c ∧ s₁.fs.device c = s.fs.device c)
    (happ : Appends g s s₁ s' ino (s.inodeOf ino) v'
      (putEntry (fun _ => 0) 0 child g.blockSize fileType name) b) : Blank s' ino (n + 1) := by
  have hbs : s.fs.blockSize = g.blockSize := congrArg Geometry.blockSize hgeo
  have hpos : 0 < s.fs.blockSize := hbs ▸ hg.blockSize_pos
  have hgeo' : s'.fs.geometry = g := by
    rw [happ.put, Ext4Fs.geometry_putInode, happ.geometry]
  have hbs' : s'.fs.blockSize = s.fs.blockSize :=
    congrArg Geometry.blockSize (hgeo'.trans hgeo.symm)
  have hinode : ∀ j < ext4Inode.size, s'.inodeOf ino j = v' j := by
    intro j hj
    rw [inodeOf, hgeo', happ.put]
    exact Ext4Fs.inode_putInode_self happ.geometry hg hj
  have hdev {c : ℕ} (hc : ¬g.Reserved c) : s'.fs.device c = s₁.fs.device c := by
    rw [happ.put]
    exact Ext4Fs.device_putInode_of_not_reserved hg happ.geometry happ.valid hc
  have hsize : s'.sizeOf ino ≤ s.sizeOf ino + s.fs.blockSize := by
    have hmod : s'.sizeOf ino = (s.sizeOf ino + g.blockSize) % 2 ^ 32 :=
      (Geometry.field_congr hinode).trans happ.size
    rw [hmod, hbs]
    exact Nat.mod_le _ _
  have hcount : s'.blocksIn (s'.sizeOf ino) ≤ s.blocksIn (s.sizeOf ino) + 1 := by
    rw [← blocksIn_add hpos, blocksIn, blocksIn, hbs']
    exact Nat.div_le_div_right (by omega)
  have hfew := h.blocksIn_le hpos
  refine ⟨?_, fun c hc => ?_⟩
  · have hold := h.size
    rw [hbs', Nat.succ_mul]
    omega
  · obtain ⟨hne, fb, hfb, hmap⟩ := mem_dirBlocks.mp hc
    have hdir : fb < ext4NdirBlocks := by omega
    have hat := happ.map s₁.fs.device (fun _ _ => rfl) fb (.inl hdir)
    rw [Geometry.fileBlock_direct hdir, ← Geometry.iBlock_congr hinode,
      ← Geometry.fileBlock_direct hdir, hmap] at hat
    rw [hat]
    split
    · rw [hdev happ.block.not_reserved]
      have hzero : recLen (putEntry (fun _ => 0) 0 child g.blockSize fileType name) 0 = 0 :=
        recLen_putEntry.trans hwrap
      refine Eq.trans (dirGet_congr fun i hi => ?_) hzero
      rw [header_size] at hi
      exact happ.new _ (Nat.zero_add _ ▸ hi.trans_le hle)
    · next hother =>
      rw [if_neg hother] at hat
      have hmem : c ∈ s.dirBlocks ino := by
        refine mem_dirBlocks.mpr ⟨hne, fb, ?_, by rw [hgeo]; exact hat.symm⟩
        have hlast : fb ≠ s.blocksIn (s.sizeOf ino) := hother
        omega
      obtain ⟨hres, hkept⟩ := hold c hmem
      rw [← hat, hdev hres, hkept]
      exact h.blocks c hmem

theorem addDirEntry {g : Geometry} {L : Set ℕ} {D : Draft} {name : Bytes} {child fileType : ℕ} {r : ℤ}
    (hs : Sound g L D) (hD : D.fs = s.fs) (hdir : ino ∈ L) (hwrap : g.blockSize % 2 ^ 16 = 0)
    (hle : 8 ≤ g.blockSize) (h : Blank s ino n) (hn : n < ext4NdirBlocks)
    (hadd : s.addDirEntry ino name child fileType = (r, s')) : Blank s' ino (n + 1) := by
  have hgeo := geometry_eq hs hD
  have hpos : 0 < s.fs.blockSize := by
    subst hgeo
    exact hs.sane.blockSize_pos
  rcases addDirEntry_steps (hgeo ▸ hs.sane) hadd with
    ⟨-, hfs⟩ | ⟨-, -, c, hc, o, ho, -⟩ | ⟨-, s₁, hfs₁, -, happend⟩
  · exact (h.of_fs hfs).mono (Nat.le_succ n)
  · -- no record has room
    have hmem := (findSlack_eq_some ho).1
    rw [← records, records_eq_nil (h.blocks c hc)] at hmem
    cases hmem
  · have h₁ := h.of_fs hfs₁
    have hD₁ := hD.trans hfs₁.symm
    have hgeo₁ := geometry_eq hs hD₁
    obtain ⟨s₂, D₂, hmakes, hold, hends⟩ := appendDirBlock_ends hs hD₁ (Set.mem_singleton ino)
      (rooted_of_mem hs hD₁ hdir) happend
    have hkept (c : ℕ) (hc : c ∈ s₁.dirBlocks ino) :
        ¬g.Reserved c ∧ s₂.fs.device c = s₁.fs.device c := by
      obtain ⟨k, p, hr, -⟩ := leaf_of_dirBlocks hs hD₁ hdir hc
      obtain ⟨hne, fb, -, rfl⟩ := mem_dirBlocks.mp hc
      rw [hgeo₁] at hne hr ⊢
      exact ⟨(hs.data _ _ _ hr).not_reserved, hold fb hne⟩
    rcases hends with ⟨-, hfs⟩ | ⟨-, v', b, happ⟩
    · have hgeo₂ := geometry_eq (hs.edits hmakes.edits) hmakes.fs
      have hinode : s₂.inodeOf ino = s₁.inodeOf ino := by
        rw [inodeOf, inodeOf, hgeo₂, hgeo₁, hmakes.inode ino (hs.valid ino hdir)]
      have h₂ : Blank s₂ ino n :=
        h₁.congr hn.le (hfs₁ ▸ hpos) (hgeo₂.trans hgeo₁.symm)
          (congrArg (ext4Inode.get · 0 .sizeLo) hinode) (fun k => by rw [hinode])
          fun c hc => (hkept c hc).2
      exact (h₂.of_fs hfs).mono (Nat.le_succ n)
    · exact h₁.append hs.sane hgeo₁ hn hwrap hle hkept happ

end Blank

/-! ## Filling a new directory -/

variable {parent ino : ℕ}

structure Relinks (s s' : Ext4) (parent : ℕ) : Prop where
  geometry : s'.fs.geometry = s.fs.geometry
  device : ∀ b, ¬s.fs.geometry.Reserved b → s'.fs.device b = s.fs.device b
  inode : ∀ i, s.fs.geometry.ValidIno i → ∀ f, i ≠ parent ∨ f ≠ .linksCount →
    ext4Inode.get (s'.inodeOf i) 0 f = ext4Inode.get (s.inodeOf i) 0 f

theorem Relinks.of_fs (hfs : s'.fs = s.fs) : Relinks s s' parent where
  geometry := by rw [hfs]
  device _ _ := by rw [hfs]
  inode _ _ _ _ := by rw [inodeOf, inodeOf, hfs]

theorem Relinks.of_put {n : ℕ} (hg : s.fs.geometry.Sane) (hvalid : s.fs.geometry.ValidIno parent)
    (hput : s'.fs = s.fs.putInode parent (ext4Inode.set (s.inodeOf parent) 0 .linksCount n)) :
    Relinks s s' parent := by
  have hgeo : s'.fs.geometry = s.fs.geometry := by rw [hput, Ext4Fs.geometry_putInode]
  refine ⟨hgeo, fun b hb => ?_, fun i hi f hf => ?_⟩
  · rw [hput]
    exact Ext4Fs.device_putInode_of_not_reserved hg rfl hvalid hb
  · rw [inodeOf, inodeOf, hgeo, hput]
    by_cases hsame : i = parent
    · subst hsame
      rw [Geometry.field_congr fun j hj => Ext4Fs.inode_putInode_self rfl hg hj]
      exact Layout.get_set_of_field_ne (hf.resolve_left (not_not_intro rfl)).symm
    · exact Geometry.field_congr fun j hj =>
        Ext4Fs.inode_putInode_of_ne rfl hg hvalid hi hsame hj

section
variable {g : Geometry} {L : Set ℕ} {D : Draft} (hs : Sound g L D) (hD : D.fs = s.fs) (hino : ino ∈ L)
include hs hD hino

theorem fillDir_steps (hsize : g.size s.fs.device ino ≤ g.blockSize) :
    ∃ dot dotdot r₁ r₂ s₁ s₂ D₁ D₂, s.addDirEntry ino dot ino 2 = (r₁, s₁) ∧
      s₁.addDirEntry ino dotdot parent 2 = (r₂, s₂) ∧ DraftEdits g {ino} D D₁ ∧ D₁.fs = s₁.fs ∧
      DraftEdits g {ino} D₁ D₂ ∧ D₂.fs = s₂.fs ∧ Relinks s₂ (s.fillDir ino parent) parent := by
  unfold fillDir
  dsimp only
  generalize (fun i : ℕ => if i = 0 then (46 : UInt8) else 0) = dot
  generalize (fun i : ℕ => if i < 2 then (46 : UInt8) else 0) = dotdot
  rcases h₁ : s.addDirEntry ino dot ino 2 with ⟨r₁, s₁⟩
  rcases h₂ : s₁.addDirEntry ino dotdot parent 2 with ⟨r₂, s₂⟩
  obtain ⟨-, D₁, D₂, hedits₁, hfs₁, hedits₂, hfs₂⟩ :=
    fillEntries_edits hs hD (Set.mem_singleton ino) hino hsize h₁ h₂
  have hs₂ := (hs.edits hedits₁).edits hedits₂
  have hgeo₂ := geometry_eq hs₂ hfs₂
  refine ⟨dot, dotdot, r₁, r₂, s₁, s₂, D₁, D₂, h₁, h₂, hedits₁, hfs₁, hedits₂, hfs₂, ?_⟩
  dsimp only
  rcases hread : s₂.readInode parent with ⟨v?, s₃⟩
  obtain ⟨hfs₃, -, hsome, -⟩ := readInode_eq hgeo₂ hs.sane hread
  dsimp only
  split
  · exact .of_fs hfs₃
  · next v =>
    obtain ⟨-, rfl⟩ := hsome v rfl
    generalize hv : ext4Inode.set _ 0 .linksCount _ = v'
    rcases hwrite : s₃.writeInode parent v' with ⟨ret, s₄⟩
    rcases (writeInode_eq (congrArg Ext4Fs.geometry hfs₃ |>.trans hgeo₂) hwrite).2 with
      ⟨-, hsame, -⟩ | ⟨-, hvalid, hput⟩
    · exact .of_fs (hsame.trans hfs₃)
    · subst hgeo₂
      have hput' : s₄.fs = s₂.fs.putInode parent (ext4Inode.set (s₂.inodeOf parent) 0 .linksCount
          (ext4Inode.get (s₂.inodeOf parent) 0 .linksCount + 1)) := by
        rw [hput, hfs₃, ← hv]
        rfl
      exact .of_put hs.sane hvalid hput'

end

/-! ## Counting the entries that name a directory -/

theorem mem_directories (hg : s.fs.geometry.Sane) (h : s.IsDirectory ino) :
    ino ∈ (Finset.range (s.fs.groupCount * s.fs.inodesPerGroup + 1)).filter s.IsDirectory :=
  Finset.mem_filter.mpr ⟨Finset.mem_range.mpr (Nat.lt_succ_of_le (hg.ino_le h.1.1)), h⟩

theorem namings_pos (hg : s.fs.geometry.Sane) (hdir : s.IsDirectory ino) {i : ℕ}
    (he : ∃ e ∈ s.dirEntries ino, e.2 = i) : s.namings i ≠ 0 := by
  obtain ⟨e, hmem, rfl⟩ := he
  rw [namings, ← Nat.pos_iff_ne_zero]
  refine Finset.sum_pos' (fun _ _ => Nat.zero_le _) ⟨ino, mem_directories hg hdir, ?_⟩
  exact List.countP_pos_iff.mpr ⟨e, hmem, decide_eq_true rfl⟩

theorem two_le_namings (hg : s.fs.geometry.Sane) (hino : s.IsDirectory ino)
    (hparent : s.IsDirectory parent) (hne : parent ≠ ino) {i : ℕ}
    (he : ∃ e ∈ s.dirEntries ino, e.2 = i) (he' : ∃ e ∈ s.dirEntries parent, e.2 = i) :
    2 ≤ s.namings i := by
  have hcount {d : ℕ} (h : ∃ e ∈ s.dirEntries d, e.2 = i) :
      1 ≤ (s.dirEntries d).countP fun e => e.2 = i := by
    obtain ⟨e, hmem, hi⟩ := h
    exact List.countP_pos_iff.mpr ⟨e, hmem, decide_eq_true hi⟩
  calc 2 ≤ ((s.dirEntries parent).countP fun e => e.2 = i) +
        (s.dirEntries ino).countP fun e => e.2 = i := Nat.add_le_add (hcount he') (hcount he)
    _ = ∑ d ∈ {parent, ino}, (s.dirEntries d).countP fun e => e.2 = i := by rw [Finset.sum_pair hne]
    _ ≤ s.namings i := by
      refine Finset.sum_le_sum_of_subset fun d hd => ?_
      rcases Finset.mem_insert.mp hd with rfl | hd
      · exact mem_directories hg hparent
      · exact Finset.mem_singleton.mp hd ▸ mem_directories hg hino

theorem MakesDirectory.not_mem_entries (h : s.MakesDirectory ino parent) (hg : s.fs.geometry.Sane)
    (hne : parent ≠ ino) (hino : s.IsDirectory ino) (hlinks : s.linksOf ino = 1)
    (hparent : s.fs.geometry.ValidIno parent)
    (hmode : ext4Inode.get (s.inodeOf parent) 0 .mode &&& ext4SIfdir ≠ 0) :
    ¬∃ e ∈ s.dirEntries parent, e.2 = ino := by
  intro hnamed
  have hentry {e : List UInt8 × ℕ} (he : e ∈ [([46], ino), ([46, 46], parent)]) :
      ∃ e' ∈ s.dirEntries ino, e'.2 = e.2 := ⟨e, h.entries.mem_iff.mpr he, rfl⟩
  have hdotdot : ∃ e ∈ s.dirEntries ino, e.2 = parent := hentry (.tail _ (.head _))
  have hdir : s.IsDirectory parent :=
    ⟨⟨hparent, h.parentLinks ▸ namings_pos hg hino hdotdot⟩, hmode⟩
  have htwo : 2 ≤ s.namings ino := two_le_namings hg hino hdir hne (hentry (.head _)) hnamed
  rw [← h.links, hlinks] at htwo
  omega

/-! ## A directory that is made -/

section
variable {g : Geometry} {D D₁ D₂ : Draft} {s₁ s₂ : Ext4} {dot dotdot : Bytes} {r₁ r₂ : ℤ}
  (hs : Sound g {ino} D) (hD : D.fs = s.fs) (h₁ : s.addDirEntry ino dot ino 2 = (r₁, s₁))
  (hedits₁ : DraftEdits g {ino} D D₁) (hfs₁ : D₁.fs = s₁.fs)
  (h₂ : s₁.addDirEntry ino dotdot parent 2 = (r₂, s₂)) (hedits₂ : DraftEdits g {ino} D₁ D₂)
  (hfs₂ : D₂.fs = s₂.fs) (hlinks : Relinks s₂ s' parent)
include hs hD h₁ hedits₁ hfs₁ h₂ hedits₂ hfs₂ hlinks

theorem filled_fields {i : ℕ} {f : InodeField} (hi : g.ValidIno i) (hsize : f ≠ .sizeLo)
    (hblocks : f ≠ .blocksLo) (hptr : ∀ k, f ≠ .block k) (hf : i ≠ parent ∨ f ≠ .linksCount) :
    ext4Inode.get (s'.inodeOf i) 0 f = ext4Inode.get (s.inodeOf i) 0 f := by
  have hs₁ := hs.edits hedits₁
  have hgeo₂ := geometry_eq (hs₁.edits hedits₂) hfs₂
  obtain ⟨hkeeps₁, -⟩ := addDirEntry_others hs hD (Set.mem_singleton ino) h₁
  obtain ⟨hkeeps₂, -⟩ := addDirEntry_others hs₁ hfs₁ (Set.mem_singleton ino) h₂
  rw [hlinks.inode i (hgeo₂.symm ▸ hi) f hf, inodeOf, inodeOf, hgeo₂, geometry_eq hs hD]
  exact (hkeeps₁.trans hkeeps₂) i hi f hsize hblocks hptr

omit h₁ hfs₁ h₂ in
theorem filled_enters {e : ℕ} (hheld : D.held = ∅) (hrefs : ∀ k p c, ¬D.Refs g (ino, k) p c)
    (hparent : g.ValidIno parent) (hne : parent ≠ ino) (he : s.Enters parent e) :
    ∃ x ∈ s'.dirEntries parent, x.2 = e := by
  have hedits := Relation.ReflTransGen.trans hedits₁ hedits₂
  have hgeo := geometry_eq hs hD
  have hgeo₂ := geometry_eq (hs.edits hedits) hfs₂
  have hrelinks (f : InodeField) (hf : f ≠ .linksCount) :
      ext4Inode.get (s'.inodeOf parent) 0 f = ext4Inode.get (s₂.inodeOf parent) 0 f :=
    hlinks.inode parent (hgeo₂.symm ▸ hparent) f (.inr hf)
  have hkept : ∀ j < ext4Inode.size, s₂.inodeOf parent j = s.inodeOf parent j := by
    rw [inodeOf, inodeOf, hgeo₂, hgeo, ← hfs₂, ← hD]
    exact hs.inode_edits hedits hparent hne
  refine he.mem (hlinks.geometry.trans (hgeo₂.trans hgeo.symm)) (fun c hc => ?_) ?_ fun k => ?_
  · rw [hgeo] at hc
    have hres : ¬s₂.fs.geometry.Reserved c := hgeo₂.symm ▸ hc.not_reserved
    have hout : Outside g {ino} D c :=
      { not_area := fun a ha heq => hc.not_reserved (.inr ⟨a, ha, heq.symm⟩)
        not_held := by simp [hheld]
        used := fun _ => hD ▸ hc.used
        not_refs := fun i hi k p => Set.mem_singleton_iff.mp hi ▸ hrefs k p c }
    rw [hlinks.device c hres, ← hfs₂, ← hD]
    exact (hout.edits hs subset_rfl hedits).2
  · exact (hrelinks .sizeLo (by simp)).trans (Geometry.field_congr hkept)
  · exact (hrelinks (.block k) (by simp)).trans (Geometry.iBlock_congr hkept)

theorem filled_blank (hwrap : g.blockSize % 2 ^ 16 = 0) (hle : 8 ≤ g.blockSize)
    (hsize : s.sizeOf ino = 0) (hne : parent ≠ ino) : s'.dirEntries ino = [] := by
  have hpos := hs.sane.blockSize_pos
  have hbs : s.fs.blockSize = g.blockSize := congrArg Geometry.blockSize (geometry_eq hs hD)
  have hs₁ := hs.edits hedits₁
  have hs₂ := hs₁.edits hedits₂
  have hgeo₂ := geometry_eq hs₂ hfs₂
  have hbs₂ : s₂.fs.blockSize = g.blockSize := congrArg Geometry.blockSize hgeo₂
  have hblank : Blank s ino 0 := by
    refine ⟨hsize.trans_le (Nat.zero_le _), fun c hc => ?_⟩
    obtain ⟨-, fb, hfb, -⟩ := mem_dirBlocks.mp hc
    rw [hsize, blocksIn, Nat.div_eq_of_lt (by omega)] at hfb
    exact absurd hfb (Nat.not_lt_zero fb)
  have hblank₁ := hblank.addDirEntry hs hD (Set.mem_singleton ino) hwrap hle (by decide) h₁
  have hblank₂ := hblank₁.addDirEntry hs₁ hfs₁ (Set.mem_singleton ino) hwrap hle (by decide) h₂
  have hrelinks (f : InodeField) :
      ext4Inode.get (s'.inodeOf ino) 0 f = ext4Inode.get (s₂.inodeOf ino) 0 f :=
    hlinks.inode ino (hgeo₂.symm ▸ hs.valid ino (Set.mem_singleton ino)) f (.inl hne.symm)
  have hblank' : Blank s' ino 2 := by
    refine hblank₂.congr (by decide) (hbs₂ ▸ hpos) hlinks.geometry (hrelinks .sizeLo)
      (fun k => hrelinks (.block k)) fun c hc => hlinks.device c ?_
    obtain ⟨k, p, hr, -⟩ := leaf_of_dirBlocks hs₂ hfs₂ (Set.mem_singleton ino) hc
    exact hgeo₂.symm ▸ (hs₂.data _ _ _ hr).not_reserved
  exact hblank'.dirEntries_eq_nil

end

/-- No directory is made as it should be: its parent's entry counts for no link, or no entry of it is
found. -/
theorem not_makesDirectory {g : Geometry} {L : Set ℕ} {D : Draft} {mode : ℕ} (hs : Sound g L D)
    (hD : D.fs = s.fs) (hino : ino ∈ L) (hparent : g.ValidIno parent) (hne : parent ≠ ino)
    (hnew : ∀ j < ext4Inode.size, s.inodeOf ino j = newInode mode j) (hdir : mode &&& ext4SIfdir ≠ 0)
    (hmode : ext4Inode.get (s.inodeOf parent) 0 .mode &&& ext4SIfdir ≠ 0)
    (hsize : ∃ k < 22, g.blockSize = 1024 <<< k)
    (hnamed : g.blockSize < 2 ^ 16 → s.Enters parent ino) :
    ¬(s.fillDir ino parent).MakesDirectory ino parent := by
  have hgeo := geometry_eq hs hD
  have hs₀ : Sound g {ino} (closed g {ino} s.fs) := by
    have hs₀ := (hs.anti (Set.singleton_subset_iff.mpr hino)).close
    rw [hD] at hs₀
    exact hs₀
  have hrefs (k : Fin 15) (p : List ℕ) (c : ℕ) : ¬(closed g {ino} s.fs).Refs g (ino, k) p c := by
    refine Ext4Fs.not_refs_of_no_block (fun i hi k => ?_) (ino, k) p c
    rw [Set.mem_singleton_iff.mp hi, ← hgeo]
    exact (Geometry.iBlock_congr hnew).trans (iBlock_newInode mode k)
  have hempty : s.sizeOf ino = 0 := (Geometry.field_congr hnew).trans (size_newInode mode)
  have hfits : g.size s.fs.device ino ≤ g.blockSize := by
    rw [sizeOf, hgeo] at hempty
    exact hempty.trans_le (Nat.zero_le _)
  obtain ⟨dot, dotdot, r₁, r₂, s₁, s₂, D₁, D₂, h₁, h₂, hedits₁, hfs₁, hedits₂, hfs₂, hlinks⟩ :=
    fillDir_steps hs₀ rfl (Set.mem_singleton ino) hfits
  generalize s.fillDir ino parent = s' at hlinks ⊢
  have hgeo' : s'.fs.geometry = g :=
    hlinks.geometry.trans (geometry_eq ((hs₀.edits hedits₁).edits hedits₂) hfs₂)
  obtain ⟨hle, -, hbs⟩ := blockSize_bounds hsize
  intro hmakes
  rcases hbs with hsmall | hwrap
  · have hfields {i : ℕ} (hi : g.ValidIno i) (f : InodeField) :=
      filled_fields (f := f) hs₀ rfl h₁ hedits₁ hfs₁ h₂ hedits₂ hfs₂ hlinks hi
    have hvalid := hs.valid ino hino
    have hone : s'.linksOf ino = 1 :=
      (hfields hvalid .linksCount (by simp) (by simp) (by simp) (.inl hne.symm)).trans
        ((Geometry.field_congr hnew).trans (linksCount_newInode mode))
    have hisDir : ext4Inode.get (s'.inodeOf ino) 0 .mode &&& ext4SIfdir ≠ 0 := by
      rw [hfields hvalid .mode (by simp) (by simp) (by simp) (.inr (by simp)),
        Geometry.field_congr hnew, isDir_newInode]
      exact hdir
    rw [← hfields hparent .mode (by simp) (by simp) (by simp) (.inr (by simp))] at hmode
    refine hmakes.not_mem_entries (hgeo'.symm ▸ hs.sane) hne ⟨⟨hgeo'.symm ▸ hvalid, ?_⟩, hisDir⟩ hone
      (hgeo'.symm ▸ hparent) hmode ?_
    · rw [hone]
      exact Nat.one_ne_zero
    · exact filled_enters hs₀ rfl hedits₁ hedits₂ hfs₂ hlinks rfl hrefs hparent hne
        (hnamed hsmall)
  · have hnil := filled_blank hs₀ rfl h₁ hedits₁ hfs₁ h₂ hedits₂ hfs₂ hlinks hwrap (by omega) hempty hne
    have hperm := hmakes.entries
    rw [hnil] at hperm
    exact absurd hperm.length_eq (by simp)

/-! ## A create is all or nothing -/

theorem createFile_mkdir {name : Bytes} {mode : ℕ} {r : ℤ} (hs : s.fs.Consistent)
    (hparent : s.IsDirectory parent) (hused : s.InodeUsed parent)
    (hsize : ∃ k < 22, s.fs.blockSize = 1024 <<< k) (hwf : s.DirWellFormed parent)
    (h : s.createFile parent name mode = (r, s')) (hr : 0 ≤ r) (hdir : mode &&& ext4SIfdir ≠ 0) :
    ¬s'.MakesDirectory r.toNat parent := by
  obtain ⟨-, -, s₂, s₃, D₂, group, index, htakes, hs₂, hnew, hadd, hfill⟩ :=
    (createFile_cases hs hparent.1 hused h).resolve_left fun hfail => by omega
  rw [hfill hdir]
  have hne := htakes.ne hs rfl hused
  generalize r.toNat = ino at *
  have hnot : parent ∉ ({ino} : Set ℕ) := hne
  have hgeo₂ := geometry_eq hs₂ htakes.fs
  have hbs₂ : s₂.fs.blockSize = s.fs.blockSize := congrArg Geometry.blockSize hgeo₂
  have hs₂' : s₂.fs.Consistent := hs.of_edits htakes.edits htakes.fs hs₂ (Set.subset_insert _ _)
    fun i hi _ => Set.mem_insert_iff.mpr (.inl hi)
  have hkept : ∀ j < ext4Inode.size, s₂.inodeOf parent j = s.inodeOf parent j := by
    rw [inodeOf, inodeOf, hgeo₂, ← htakes.fs]
    exact hs.inode_edits htakes.edits hparent.1.1 hnot
  have hlive : parent ∈ s₂.fs.live := by
    refine ⟨hgeo₂.symm ▸ hparent.1.1, ?_⟩
    exact (Geometry.field_congr hkept).trans_ne hparent.1.2
  obtain ⟨hkeeps, hothers, hsound⟩ :=
    addDirEntry_others hs₂ htakes.fs (Set.mem_insert_of_mem _ hparent.1) hadd
  obtain ⟨D₃, hs₃, hfs₃⟩ := hsound {ino} (Set.singleton_subset_iff.mpr (Set.mem_insert _ _)) hnot
  have hgeo₃ := geometry_eq hs₃ hfs₃
  have hino : ino < 2 ^ 32 := (hs.sane.ino_le htakes.valid).trans_lt hs.sane.inodes_lt
  refine not_makesDirectory hs₃ hfs₃ (Set.mem_singleton ino) hparent.1.1 hne (fun j hj => ?_) hdir ?_
    hsize fun hsmall => ?_
  · rw [inodeOf, hgeo₃, hothers ino htakes.valid hne.symm j hj, ← hnew j hj, inodeOf, hgeo₂]
  · rw [inodeOf, hgeo₃, hkeeps parent hparent.1.1 .mode (by simp) (by simp) (by simp), ← hgeo₂,
      ← inodeOf, Geometry.field_congr hkept]
    exact hparent.2
  · have hwf₂ := (dirEntries_of_edits hs rfl hparent.1 hnot htakes.edits htakes.fs).2 hwf
    have hle := (blockSize_bounds hsize).1
    exact addDirEntry_enters hs₂' hlive hwf₂ hino (by omega) (.inr (hbs₂.trans_lt hsmall)) hadd

/-- A create is all or nothing just if it makes no directory and, where it fails, gives back all it has
taken. -/
theorem create_file_iff {name : Bytes} {mode : ℕ} (hs : s.fs.Consistent) (hparent : s.IsDirectory parent)
    (hused : s.InodeUsed parent) (hsize : ∃ k < 22, s.fs.blockSize = 1024 <<< k)
    (hwf : s.DirWellFormed parent) :
    s.CreatesAtomically parent name mode ↔ s.CreateUnwinds parent name mode := by
  rcases h : s.createFile parent name mode with ⟨r, s'⟩
  rcases createFile_cases hs hparent.1 hused h with ⟨rfl, hiff⟩ | ⟨hr, hiff, -⟩
  · rw [hiff]
    refine ⟨fun hatomic => ?_, fun hrestores => ⟨fun _ => ?_, fun hpos => ?_⟩⟩
    · have hfails := hatomic.fails
      rw [h] at hfails
      exact hfails rfl
    · rw [h]
      exact hrestores
    · rw [h] at hpos
      exact absurd (show (0 : ℤ) ≤ -1 from hpos) (by decide)
  · rw [hiff]
    refine ⟨fun hatomic => ?_, fun hfile => ⟨fun hneg => ?_, fun _ hdir => absurd hfile hdir⟩⟩
    · by_contra hdir
      have hmakes := hatomic.directory
      rw [h] at hmakes
      exact createFile_mkdir hs hparent hused hsize hwf h hr hdir (hmakes hr hdir)
    · rw [h] at hneg
      obtain rfl : r = -1 := hneg
      exact absurd hr (by decide)

theorem create_file_second : withA.CreatesAtomically 2 nameB 0x8000 := by
  obtain ⟨hs, -, -, hwf⟩ := withA_ready
  have hparent : withA.IsDirectory 2 := by decide +kernel
  have hused : withA.InodeUsed 2 := by
    rw [InodeUsed]
    decide +kernel
  refine (create_file_iff hs hparent hused ⟨0, by decide, by decide +kernel⟩ hwf).mpr ?_
  have hret : (withA.createFile 2 nameB 0x8000).1 = 4 := by decide +kernel
  rcases h : withA.createFile 2 nameB 0x8000 with ⟨r, s'⟩
  rw [h] at hret
  rcases createFile_cases hs hparent.1 hused h with ⟨hfail, -⟩ | ⟨-, hiff, -⟩
  · rw [hfail] at hret
    cases hret
  · exact hiff.mpr (by decide)

/-- `mkdir` in an empty root directory: the entry `a` and the entry `.` name inode 3, which has one
link. When the sixth `kmalloc` fails, the parent's inode is not written, and a create returns -1 with
one free block less. -/
theorem create_file_not_atomic :
    ((sample.createFile 2 nameA 0x4000).1 = 3 ∧
      (sample.createFile 2 nameA 0x4000).2.linksOf 3 = 1 ∧
      (sample.createFile 2 nameA 0x4000).2.namings 3 = 2 ∧ ¬sample.CreatesAtomically 2 nameA 0x4000) ∧
    ∃ s : Ext4, s = ⟨sampleFs, [true, true, true, true, true, false], []⟩ ∧
      (s.createFile 2 nameA 0x8000).1 = -1 ∧ s.fs.super .freeBlocksCountLo = 58 ∧
      (s.createFile 2 nameA 0x8000).2.fs.super .freeBlocksCountLo = 57 ∧
      ¬s.CreatesAtomically 2 nameA 0x8000 := by
  constructor
  · have hret : (sample.createFile 2 nameA 0x4000).1 = 3 := by decide +kernel
    have hlinks : (sample.createFile 2 nameA 0x4000).2.linksOf 3 = 1 := by decide +kernel
    have hnamings : (sample.createFile 2 nameA 0x4000).2.namings 3 = 2 := by decide +kernel
    refine ⟨hret, hlinks, hnamings, fun hatomic => ?_⟩
    have hmakes := (hatomic.directory (hret ▸ by decide) (by decide)).links
    rw [hret] at hmakes
    exact absurd (hlinks.symm.trans (hmakes.trans hnamings)) (by decide)
  · refine ⟨_, rfl, ?_⟩
    have hret : (createFile ⟨sampleFs, [true, true, true, true, true, false], []⟩ 2 nameA 0x8000).1 =
        -1 := by decide +kernel
    have hbefore : sampleFs.super .freeBlocksCountLo = 58 := by decide +kernel
    have hafter : (createFile ⟨sampleFs, [true, true, true, true, true, false], []⟩ 2 nameA
        0x8000).2.fs.super .freeBlocksCountLo = 57 := by decide +kernel
    refine ⟨hret, hbefore, hafter, fun hatomic => ?_⟩
    have hcount := (hatomic.fails hret).super_eq .freeBlocksCountLo
    exact absurd (hafter.symm.trans (hcount.trans hbefore)) (by decide)

end Ext4

end GcAos.Fs
