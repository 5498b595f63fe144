import GcAos.Fs.Ext4Ops

/-! The file and directory calls of the ext4 driver as edits. -/

namespace GcAos.Fs
open Lib Ext4 Draft

/-- Nothing keeps a new indirect block of the inode `v` from being zeroed, if a file block up to
`last` needs one. -/
def Ext4.CanZero (s : Ext4) (v : Bytes) (last : ℕ) : Prop :=
  s.kmallocs = [] ∧ s.ios = [] ∨ iBlock v ext4IndBlock ≠ 0 ∨ last < ext4NdirBlocks

theorem Ext4.CanZero.later {s s' : Ext4} {v v' : Bytes} {last : ℕ} (h : s.CanZero v last)
    (hlater : Later s s') (hv : iBlock v ext4IndBlock ≠ 0 → iBlock v' ext4IndBlock ≠ 0) :
    s'.CanZero v' last := by
  rcases h with ⟨hk, hio⟩ | hind | hlast
  · exact .inl ⟨hlater.kmallocs_nil hk, hlater.ios_nil hio⟩
  · exact .inr (.inl (hv hind))
  · exact .inr (.inr hlast)

theorem Ext4.CanZero.quiet {s : Ext4} {v : Bytes} {fb last : ℕ} (h : s.CanZero v last)
    (hfb : fb ≤ last) :
    ext4NdirBlocks ≤ fb → iBlock v ext4IndBlock = 0 → s.kmallocs = [] ∧ s.ios = [] := by
  intro hle hnone
  rcases h with h | hind | hlast
  · exact h
  · exact absurd hnone hind
  · omega

def Geometry.size (g : Geometry) (device : ℕ → Bytes) (ino : ℕ) : ℕ :=
  ext4Inode.get (g.inode device ino) 0 .sizeLo

theorem Geometry.size_congr {g : Geometry} {device device' : ℕ → Bytes} {ino : ℕ}
    (h : ∀ i < ext4Inode.size, g.inode device' ino i = g.inode device ino i) :
    g.size device' ino = g.size device ino := field_congr h

theorem scanDir_eq {g : Geometry} {s s' : Ext4} {v : Bytes} {need : ℕ} {bs : List ℕ}
    {r : Option (ℕ × Bytes × ℕ)} (hfs : s.fs.geometry = g) (h : scanDir v need bs s = (r, s')) :
    s'.fs = s.fs ∧ Later s s' ∧ ∀ c blk offset, r = some (c, blk, offset) →
      ∃ b ∈ bs, c = g.fileBlock s.fs.device v b ∧ c ≠ 0 ∧ blk = s.fs.device c ∧
        findSlack blk g.blockSize need g.blockSize 0 = some offset := by
  induction bs generalizing s with
  | nil =>
    obtain ⟨rfl, rfl⟩ := Prod.mk.inj h
    exact ⟨rfl, .refl _, by simp⟩
  | cons b bs ih =>
    unfold scanDir at h
    rcases hget : s.getFileBlock v b with ⟨c, s₁⟩
    obtain ⟨hfs₁, hlater₁, hc, -⟩ := getFileBlock_eq hfs hget
    rw [hget] at h
    dsimp only at h
    -- the blocks left are scanned on the same file system
    have hnext {s₂ : Ext4} (hfs₂ : s₂.fs = s.fs) (hlater₂ : Later s s₂)
        (h : scanDir v need bs s₂ = (r, s')) :
        s'.fs = s.fs ∧ Later s s' ∧ ∀ c blk offset, r = some (c, blk, offset) →
          ∃ b' ∈ b :: bs, c = g.fileBlock s.fs.device v b' ∧ c ≠ 0 ∧ blk = s.fs.device c ∧
            findSlack blk g.blockSize need g.blockSize 0 = some offset := by
      obtain ⟨hfs', hlater', hfound⟩ := ih (hfs₂ ▸ hfs) h
      rw [hfs₂] at hfs' hfound
      refine ⟨hfs', hlater₂.trans hlater', fun c blk offset hr => ?_⟩
      obtain ⟨b', hb', hrest⟩ := hfound c blk offset hr
      exact ⟨b', List.mem_cons_of_mem _ hb', hrest⟩
    split at h
    · exact hnext hfs₁ hlater₁ h
    · next hne =>
      rcases hread : s₁.readBlock c with ⟨blk?, s₂⟩
      obtain ⟨hfs₂, hlater₂, hsome, -⟩ := readBlock_eq hread
      have hfs₂ := hfs₂.trans hfs₁
      have hlater₂ := hlater₁.trans hlater₂
      rw [hread] at h
      dsimp only at h
      split at h
      · exact hnext hfs₂ hlater₂ h
      · next blk =>
        obtain rfl := hsome blk rfl
        rw [hfs₁] at h
        split at h
        · exact hnext hfs₂ hlater₂ h
        · next offset hslack =>
          obtain ⟨rfl, rfl⟩ := Prod.mk.inj h
          refine ⟨hfs₂, hlater₂, fun c' blk offset' hr => ?_⟩
          obtain ⟨rfl, rfl, rfl⟩ : c = c' ∧ s.fs.device c = blk ∧ offset = offset' := by
            simpa using hr
          have hsize : s₂.fs.blockSize = g.blockSize := by
            rw [hfs₂, ← hfs]
            rfl
          rw [hsize] at hslack
          exact ⟨b, List.mem_cons_self .., hc.resolve_left hne, hne, rfl, hslack⟩

section
variable {g : Geometry} {I L : Set ℕ} {D : Draft} {s s' : Ext4} {ino : ℕ}
  (hs : Sound g L D) (hD : D.fs = s.fs) (hI : ino ∈ I)
include hs

theorem leaf_fileBlock {device : ℕ → Bytes} {v : Bytes} {fb : ℕ} (hdev : device = D.fs.device)
    (hv : Geometry.Rooted D.root ino v) (hne : g.fileBlock device v fb ≠ 0) :
    D.Leaf g ino (g.fileBlock device v fb) := by
  subst hdev
  exact ⟨_, _, Geometry.refs_fileBlock hv hs.sane hne, Geometry.length_fileAddr fb ino⟩

include hD hI

theorem obtainBlock_makes {v v' : Bytes} {fb last : ℕ} {r : Option (ℕ × Bytes)}
    (hv : Geometry.Rooted D.root ino v) (hzero : s.CanZero v last) (hfb : fb ≤ last)
    (h : s.obtainBlock v fb ino = (r, v', s')) :
    ∃ D', Makes g I D s s' D' ∧ Geometry.Rooted D'.root ino v' ∧ s'.CanZero v' last ∧
      ∀ b buf, r = some (b, buf) → D'.Leaf g ino b := by
  unfold obtainBlock at h
  rcases hget : s.getFileBlock v fb with ⟨b, s₁⟩
  obtain ⟨hfs₁, hlater₁, hb, -⟩ := getFileBlock_eq (geometry_eq hs hD) hget
  have hmakes₁ : Makes g I D s s₁ D := .stay hD hlater₁ hfs₁
  rw [hget] at h
  dsimp only at h
  split at h
  · rcases halloc : s₁.allocBlock (s₁.inodeGroup ino) with ⟨n, s₂⟩
    obtain ⟨D₂, hmakes₂, hroot₂, -, hn⟩ := allocBlock_makes hs hmakes₁.fs hI halloc
    have hmakes₂ := hmakes₁.trans hmakes₂
    have hs₂ := hs.edits hmakes₂.edits
    have hv₂ : Geometry.Rooted D₂.root ino v := hroot₂ ▸ hv
    rw [halloc] at h
    dsimp only at h
    split at h
    · obtain ⟨rfl, rfl, rfl⟩ : none = r ∧ v = v' ∧ s₂ = s' := by simpa using h
      exact ⟨D₂, hmakes₂, hv₂, hzero.later hmakes₂.later id, by simp⟩
    · next hpos =>
      rcases hset : s₂.setFileBlock v fb n.toNat ino with ⟨ret, v₃, s₃⟩
      have hzero₂ := hzero.later hmakes₂.later id
      obtain ⟨D₃, hmakes₃, hv₃, hheld₃, hleaf₃⟩ :=
        setFileBlock_makes hs₂ hmakes₂.fs hI hv₂ (hn (not_lt.mp hpos)).1 (hzero₂.quiet hfb) hset
      have hset' := setFileBlock_inode hset
      have hind : iBlock v ext4IndBlock ≠ 0 → iBlock v₃ ext4IndBlock ≠ 0 := fun hne => by
        rw [hset'.ind_eq hne]
        exact hne
      have hmakes₃ := hmakes₂.trans hmakes₃
      rw [hset] at h
      dsimp only at h
      split at h
      · next hneg =>
        rcases hfree : s₃.freeBlock n.toNat with ⟨ret', s₄⟩
        obtain ⟨D₄, hmakes₄, hroot₄, -⟩ :=
          freeBlock_makes (hs.edits hmakes₃.edits) hmakes₃.fs hI (hheld₃ hneg) hfree
        have hmakes₄ := hmakes₃.trans hmakes₄
        rw [hfree] at h
        obtain ⟨rfl, rfl, rfl⟩ : none = r ∧ v₃ = v' ∧ s₄ = s' := by simpa using h
        exact ⟨D₄, hmakes₄, hroot₄ ▸ hv₃, hzero.later hmakes₄.later hind, by simp⟩
      · next hok =>
        obtain ⟨rfl, rfl, rfl⟩ : some (n.toNat, fun _ => 0) = r ∧
          ext4Inode.set v₃ 0 .blocksLo (ext4Inode.get v₃ 0 .blocksLo + s₃.fs.blockSize / 512) = v' ∧
          s₃ = s' := by simpa using h
        refine ⟨D₃, hmakes₃, hv₃.set_field (by simp), hzero.later hmakes₃.later ?_, ?_⟩
        · rw [Geometry.iBlock_set_of_ne (by simp)]
          exact hind
        · intro b buf hr
          obtain ⟨rfl, -⟩ := pair_inj hr
          exact hleaf₃ (not_lt.mp hok)
  · next hne =>
    rcases hread : s₁.readBlock b with ⟨buf?, s₂⟩
    obtain ⟨hfs₂, hlater₂, -⟩ := readBlock_eq hread
    rw [hread] at h
    obtain ⟨rfl, rfl, rfl⟩ : buf?.map (fun buf => (b, buf)) = r ∧ v = v' ∧ s₂ = s' := by
      simpa using h
    refine ⟨D, hmakes₁.trans (.stay hmakes₁.fs hlater₂ hfs₂), hv,
      hzero.later (hlater₁.trans hlater₂) id, ?_⟩
    intro c buf hr
    obtain ⟨buf', -, hc⟩ := Option.map_eq_some_iff.mp hr
    obtain ⟨rfl, -⟩ := Prod.mk.inj hc
    have hb := hb.resolve_left hne
    rw [hb] at hne ⊢
    exact leaf_fileBlock hs (congrArg Ext4Fs.device hD.symm) hv hne

theorem writeLoop_makes {buf v v' : Bytes} {offset len last fuel written written' : ℕ}
    (hv : Geometry.Rooted D.root ino v) (hzero : s.CanZero v last)
    (hlast : ∀ w < len, (offset + w) % 2 ^ 64 / g.blockSize ≤ last)
    (h : writeLoop ino buf offset len fuel written v s = (written', v', s')) :
    ∃ D', Makes g I D s s' D' ∧ Geometry.Rooted D'.root ino v' := by
  induction fuel generalizing D s v written with
  | zero =>
    obtain ⟨rfl, rfl, rfl⟩ : written = written' ∧ v = v' ∧ s = s' := by simpa [writeLoop] using h
    exact ⟨D, .stay hD (.refl _) rfl, hv⟩
  | succ fuel ih =>
    unfold writeLoop at h
    split at h
    · next hlt =>
      have hsize : s.fs.blockSize = g.blockSize := congrArg Geometry.blockSize (geometry_eq hs hD)
      dsimp only at h
      rcases hobtain : s.obtainBlock v ((offset + written) % 2 ^ 64 / s.fs.blockSize) ino with
        ⟨r, v₁, s₁⟩
      obtain ⟨D₁, hmakes₁, hv₁, hzero₁, hleaf⟩ :=
        obtainBlock_makes hs hD hI hv hzero (hsize ▸ hlast written hlt) hobtain
      rw [hobtain] at h
      dsimp only at h
      split at h
      · obtain ⟨rfl, rfl, rfl⟩ : written = written' ∧ v₁ = v' ∧ s₁ = s' := by simpa using h
        exact ⟨D₁, hmakes₁, hv₁⟩
      · next b blockBuf =>
        generalize hcopy : blockBuf.blit _ _ _ = blk at h
        rcases hwrite : s₁.writeBlockRaw b blk with ⟨ret, s₂⟩
        have hs₁ := hs.edits hmakes₁.edits
        obtain ⟨D₂, hmakes₂, hroot₂, -⟩ :=
          writeBlockRaw_makes hs₁ hmakes₁.fs hI (.inr (hleaf b blockBuf rfl)) hwrite
        have hmakes₂ := hmakes₁.trans hmakes₂
        have hv₂ : Geometry.Rooted D₂.root ino v₁ := hroot₂ ▸ hv₁
        rw [hwrite] at h
        dsimp only at h
        split at h
        · obtain ⟨rfl, rfl, rfl⟩ : written = written' ∧ v₁ = v' ∧ s₂ = s' := by simpa using h
          exact ⟨D₂, hmakes₂, hv₂⟩
        · have hlater := (writeBlockRaw_eq hwrite).1
          obtain ⟨D₃, hmakes₃, hv₃⟩ :=
            ih (hs.edits hmakes₂.edits) hmakes₂.fs hv₂ (hzero₁.later hlater id) h
          exact ⟨D₃, hmakes₂.trans hmakes₃, hv₃⟩
    · obtain ⟨rfl, rfl, rfl⟩ : written = written' ∧ v = v' ∧ s = s' := by simpa using h
      exact ⟨D, .stay hD (.refl _) rfl, hv⟩

theorem writeFile_edits {buf : Bytes} {offset len last : ℕ} {r : ℤ}
    (hino : g.ValidIno ino → ino ∈ L)
    (hzero : g.ValidIno ino → s.CanZero (g.inode s.fs.device ino) last)
    (hlast : ∀ w < len, (offset + w) % 2 ^ 64 / g.blockSize ≤ last)
    (h : s.writeFile ino buf offset len = (r, s')) :
    Later s s' ∧ ∃ D', DraftEdits g I D D' ∧ D'.fs = s'.fs := by
  unfold writeFile at h
  rcases hread : s.readInode ino with ⟨v?, s₁⟩
  obtain ⟨hfs₁, hlater₁, hsome, -⟩ := readInode_eq (geometry_eq hs hD) hs.sane hread
  rw [hread] at h
  dsimp only at h
  split at h
  · obtain ⟨rfl, rfl⟩ := Prod.mk.inj h
    exact ⟨hlater₁, D, .refl, hD.trans hfs₁.symm⟩
  · next v =>
    obtain ⟨hvalid, rfl⟩ := hsome v rfl
    rcases hkm : s₁.kmalloc with ⟨ok, s₂⟩
    obtain ⟨hfs₂, hlater₂, -⟩ := kmalloc_eq hkm
    have hlater₂ := hlater₁.trans hlater₂
    have hfs₂ := hfs₂.trans hfs₁
    rw [hkm] at h
    dsimp only at h
    split at h
    · obtain ⟨rfl, rfl⟩ := Prod.mk.inj h
      exact ⟨hlater₂, D, .refl, hD.trans hfs₂.symm⟩
    · have hv : Geometry.Rooted D.root ino (g.inode s.fs.device ino) := by
        rw [← hD]
        exact hs.table ino (hino hvalid)
      rcases hloop : writeLoop ino buf offset len len 0 (g.inode s.fs.device ino) s₂ with
        ⟨written, v₃, s₃⟩
      obtain ⟨D₃, hmakes₃, hv₃⟩ := writeLoop_makes hs (hD.trans hfs₂.symm) hI hv
        ((hzero hvalid).later hlater₂ id) hlast hloop
      rw [hloop] at h
      dsimp only at h
      generalize hsized : (if ext4Inode.get v₃ 0 .sizeLo < (offset + written) % 2 ^ 64 then
        ext4Inode.set v₃ 0 .sizeLo ((offset + written) % 2 ^ 64) else v₃) = v₄ at h
      have hv₄ : Geometry.Rooted D₃.root ino v₄ := by
        rw [← hsized]
        split
        · exact hv₃.set_field (by simp)
        · exact hv₃
      rcases hwrite : s₃.writeInode ino (ext4Inode.set v₄ 0 .mtime 0) with ⟨ret, s₄⟩
      obtain ⟨hlater₄, D₄, hedits₄, hfs₄, -⟩ :=
        writeInode_edits (hs.edits hmakes₃.edits) hmakes₃.fs hI (hv₄.set_field (by simp)) hwrite
      rw [hwrite] at h
      obtain ⟨-, rfl⟩ := Prod.mk.inj h
      exact ⟨hlater₂.trans (hmakes₃.later.trans hlater₄), D₄,
        Relation.ReflTransGen.trans hmakes₃.edits hedits₄, hfs₄⟩

theorem appendDirBlock_edits {v name : Bytes} {newIno fileType : ℕ} {r : ℤ} (hino : ino ∈ L)
    (hv : v = g.inode s.fs.device ino)
    (hzero : s.CanZero v (s.blocksIn (ext4Inode.get v 0 .sizeLo)))
    (h : s.appendDirBlock ino v name newIno fileType = (r, s')) :
    Later s s' ∧ ∃ D', DraftEdits g I D D' ∧ D'.fs = s'.fs ∧ D'.inodes = D.inodes ∧
      ∀ i, g.ValidIno i → g.size s'.fs.device i ≤ g.size s.fs.device i + g.blockSize := by
  have hroot : Geometry.Rooted D.root ino v := by
    rw [hv, ← hD]
    exact hs.table ino hino
  -- as long as no inode is written, the sizes stay
  have hdone {D₁ : Draft} {s₁ : Ext4} (hmakes : Makes g I D s s₁ D₁) :
      Later s s₁ ∧ ∃ D', DraftEdits g I D D' ∧ D'.fs = s₁.fs ∧ D'.inodes = D.inodes ∧
        ∀ i, g.ValidIno i → g.size s₁.fs.device i ≤ g.size s.fs.device i + g.blockSize := by
    refine ⟨hmakes.later, D₁, hmakes.edits, hmakes.fs, hmakes.inodes, fun i hi => ?_⟩
    rw [Geometry.size, hmakes.inode i hi]
    exact Nat.le_add_right _ _
  unfold appendDirBlock at h
  rcases halloc : s.allocBlock (s.inodeGroup ino) with ⟨n, s₁⟩
  obtain ⟨D₁, hmakes₁, hroot₁, -, hn⟩ := allocBlock_makes hs hD hI halloc
  have hs₁ := hs.edits hmakes₁.edits
  dsimp only at h
  rw [halloc] at h
  dsimp only at h
  split at h
  · obtain ⟨rfl, rfl⟩ := Prod.mk.inj h
    exact hdone hmakes₁
  · next hpos =>
    have hmem := (hn (not_lt.mp hpos)).1
    generalize hblk : putEntry (fun _ => 0) 0 newIno s₁.fs.blockSize fileType name = blk at h
    rcases hwrite : s₁.writeBlockRaw n.toNat blk with ⟨ret, s₂⟩
    obtain ⟨D₂, hmakes₂, hroot₂, hheld₂⟩ :=
      writeBlockRaw_makes hs₁ hmakes₁.fs hI (.inl hmem) hwrite
    have hmakes₂ := hmakes₁.trans hmakes₂
    have hs₂ := hs.edits hmakes₂.edits
    have hmem₂ : n.toNat ∈ D₂.held := hheld₂ ▸ hmem
    rw [hwrite] at h
    dsimp only at h
    split at h
    · rcases hfree : s₂.freeBlock n.toNat with ⟨ret', s₃⟩
      obtain ⟨D₃, hmakes₃, -⟩ := freeBlock_makes hs₂ hmakes₂.fs hI hmem₂ hfree
      rw [hfree] at h
      obtain ⟨-, rfl⟩ := Prod.mk.inj h
      exact hdone (hmakes₂.trans hmakes₃)
    · rcases hset : s₂.setFileBlock v (s.blocksIn (ext4Inode.get v 0 .sizeLo)) n.toNat ino with
        ⟨ret', v₃, s₃⟩
      have hzero₂ := (hzero.later hmakes₂.later id).quiet le_rfl
      obtain ⟨D₃, hmakes₃, hv₃, hheld₃, -⟩ :=
        setFileBlock_makes hs₂ hmakes₂.fs hI (hroot₂ ▸ hroot₁ ▸ hroot) hmem₂ hzero₂ hset
      have hmakes₃ := hmakes₂.trans hmakes₃
      have hs₃ := hs.edits hmakes₃.edits
      rw [hset] at h
      dsimp only at h
      split at h
      · next hneg =>
        rcases hfree : s₃.freeBlock n.toNat with ⟨ret'', s₄⟩
        obtain ⟨D₄, hmakes₄, -⟩ := freeBlock_makes hs₃ hmakes₃.fs hI (hheld₃ hneg) hfree
        rw [hfree] at h
        obtain ⟨-, rfl⟩ := Prod.mk.inj h
        exact hdone (hmakes₃.trans hmakes₄)
      · generalize hv₄ : ext4Inode.set _ 0 .blocksLo _ = v₄ at h
        have hsize₃ : s₃.fs.blockSize = g.blockSize :=
          congrArg Geometry.blockSize (geometry_eq hs₃ hmakes₃.fs)
        have hroot₄ : Geometry.Rooted D₃.root ino v₄ := by
          rw [← hv₄]
          exact (hv₃.set_field (by simp)).set_field (by simp)
        have hsize₄ : ext4Inode.get v₄ 0 .sizeLo ≤ g.size s.fs.device ino + g.blockSize := by
          rw [← hv₄, Layout.get_set_of_field_ne (by decide), Layout.get_set_self,
            (setFileBlock_inode hset).get_eq (by simp), hv, hsize₃]
          exact Nat.mod_le _ _
        obtain ⟨hlater₄, hcases⟩ := writeInode_eq (geometry_eq hs₃ hmakes₃.fs) h
        rcases hcases with ⟨-, hsame, -⟩ | ⟨-, hvalid, hput⟩
        · exact hdone (hmakes₃.trans (.stay hmakes₃.fs hlater₄ hsame))
        · have hgeo := geometry_eq hs₃ hmakes₃.fs
          refine ⟨hmakes₃.later.trans hlater₄, _,
            .tail hmakes₃.edits ⟨ino, hI, .putInode hvalid hroot₄⟩, ?_, hmakes₃.inodes, ?_⟩
          · rw [hput, ← hmakes₃.fs]
          · intro i hi
            rw [hput]
            by_cases hsame : i = ino
            · subst hsame
              have heq : g.size (s₃.fs.putInode i v₄).device i = ext4Inode.get v₄ 0 .sizeLo :=
                Geometry.field_congr fun j hj => Ext4Fs.inode_putInode_self hgeo hs.sane hj
              rw [heq]
              exact hsize₄
            · rw [Geometry.size_congr fun j hj =>
                Ext4Fs.inode_putInode_of_ne hgeo hs.sane hvalid hi hsame hj, Geometry.size,
                hmakes₃.inode i hi]
              exact Nat.le_add_right _ _

theorem addDirEntry_edits {name : Bytes} {newIno fileType : ℕ} {r : ℤ}
    (hino : g.ValidIno ino → ino ∈ L)
    (hzero : g.ValidIno ino →
      s.CanZero (g.inode s.fs.device ino) (s.blocksIn (g.size s.fs.device ino)))
    (h : s.addDirEntry ino name newIno fileType = (r, s')) :
    Later s s' ∧ ∃ D', DraftEdits g I D D' ∧ D'.fs = s'.fs ∧ D'.inodes = D.inodes ∧
      ∀ i, g.ValidIno i → g.size s'.fs.device i ≤ g.size s.fs.device i + g.blockSize := by
  unfold addDirEntry at h
  rcases hread : s.readInode ino with ⟨v?, s₁⟩
  obtain ⟨hfs₁, hlater₁, hsome, -⟩ := readInode_eq (geometry_eq hs hD) hs.sane hread
  rw [hread] at h
  dsimp only at h
  split at h
  · obtain ⟨rfl, rfl⟩ := Prod.mk.inj h
    exact ⟨hlater₁, D, .refl, hD.trans hfs₁.symm, rfl, fun i _ => hfs₁ ▸ Nat.le_add_right _ _⟩
  · next v =>
    obtain ⟨hvalid, rfl⟩ := hsome v rfl
    rcases hkm : s₁.kmalloc with ⟨ok, s₂⟩
    obtain ⟨hfs₂, hlater₂, -⟩ := kmalloc_eq hkm
    have hlater₂ := hlater₁.trans hlater₂
    have hfs₂ := hfs₂.trans hfs₁
    rw [hkm] at h
    dsimp only at h
    split at h
    · obtain ⟨rfl, rfl⟩ := Prod.mk.inj h
      exact ⟨hlater₂, D, .refl, hD.trans hfs₂.symm, rfl, fun i _ => hfs₂ ▸ Nat.le_add_right _ _⟩
    · generalize hscan : scanDir (g.inode s.fs.device ino) _ _ s₂ = res at h
      obtain ⟨found, s₃⟩ := res
      have hgeo₂ : s₂.fs.geometry = g := by rw [hfs₂, geometry_eq hs hD]
      obtain ⟨hfs₃, hlater₃, hfound⟩ := scanDir_eq hgeo₂ hscan
      have hlater₃ := hlater₂.trans hlater₃
      have hfs₃ := hfs₃.trans hfs₂
      have hD₃ : D.fs = s₃.fs := hD.trans hfs₃.symm
      dsimp only at h
      split at h
      · next c blk offset =>
        obtain ⟨b, -, hc, hne, -, -⟩ := hfound c blk offset rfl
        have hleaf : D.Leaf g ino c := by
          rw [hc, hfs₂] at hne ⊢
          refine leaf_fileBlock hs (congrArg Ext4Fs.device hD.symm) ?_ hne
          rw [← hD]
          exact hs.table ino (hino hvalid)
        obtain ⟨D₄, hmakes₄, -⟩ := writeBlockRaw_makes hs hD₃ hI (.inr hleaf) h
        refine ⟨hlater₃.trans hmakes₄.later, D₄, hmakes₄.edits, hmakes₄.fs, hmakes₄.inodes,
          fun i hi => ?_⟩
        rw [Geometry.size, hmakes₄.inode i hi, hfs₃]
        exact Nat.le_add_right _ _
      · have hblocks (n : ℕ) : s₃.blocksIn n = s.blocksIn n := by rw [blocksIn, blocksIn, hfs₃]
        obtain ⟨hlater₄, D₄, hedits, hfs₄, hinodes, hsizes⟩ :=
          appendDirBlock_edits hs hD₃ hI (hino hvalid) (by rw [hfs₃])
            (by rw [hblocks]; exact (hzero hvalid).later hlater₃ id) h
        refine ⟨hlater₃.trans hlater₄, D₄, hedits, hfs₄, hinodes, ?_⟩
        rw [hfs₃] at hsizes
        exact hsizes

end

theorem iBlock_newInode (mode : ℕ) (k : Fin 15) : iBlock (newInode mode) k = 0 := by
  unfold newInode
  simp only [Geometry.iBlock_set_of_ne, ne_eq, reduceCtorEq, not_false_eq_true]
  rfl

theorem size_newInode (mode : ℕ) : ext4Inode.get (newInode mode) 0 .sizeLo = 0 := by
  unfold newInode
  simp only [Layout.get_set_of_field_ne, ne_eq, reduceCtorEq, not_false_eq_true]
  rfl

theorem linksCount_newInode (mode : ℕ) : ext4Inode.get (newInode mode) 0 .linksCount = 1 := by
  unfold newInode
  simp only [Layout.get_set_of_field_ne, ne_eq, reduceCtorEq, not_false_eq_true]
  exact Layout.get_set_self

theorem isDir_newInode (mode : ℕ) :
    ext4Inode.get (newInode mode) 0 .mode &&& ext4SIfdir = mode &&& ext4SIfdir := by
  have hmode : ext4Inode.get (newInode mode) 0 .mode = mode % 2 ^ 16 := by
    unfold newInode
    simp only [Layout.get_set_of_field_ne, ne_eq, reduceCtorEq, not_false_eq_true]
    exact Layout.get_set_self
  rw [hmode, show ext4SIfdir = 2 ^ 14 from rfl, Nat.and_two_pow, Nat.and_two_pow,
    Nat.testBit_mod_two_pow]
  rfl

theorem blocksIn_lt {s : Ext4} {n : ℕ} (hpos : 0 < s.fs.blockSize) (hn : n ≤ 2 * s.fs.blockSize) :
    s.blocksIn n < ext4NdirBlocks := by
  have hle : s.blocksIn n < 3 := by
    rw [blocksIn, Nat.div_lt_iff_lt_mul hpos]
    omega
  exact hle.trans (by decide)

section
variable {g : Geometry} {I L : Set ℕ} {D : Draft} {s s' : Ext4} {ino newIno : ℕ}
  (hs : Sound g L D) (hD : D.fs = s.fs) (hI : ino ∈ I) (hnew : newIno ∈ I)
include hs hD hI hnew

omit hI in
theorem fillEntries_edits {s₁ s₂ : Ext4} {dot dotdot : Bytes} {r₁ r₂ : ℤ} (hnewL : newIno ∈ L)
    (hsize : g.size s.fs.device newIno ≤ g.blockSize)
    (h₁ : s.addDirEntry newIno dot newIno 2 = (r₁, s₁))
    (h₂ : s₁.addDirEntry newIno dotdot ino 2 = (r₂, s₂)) :
    Later s s₂ ∧ ∃ D₁ D₂, DraftEdits g I D D₁ ∧ D₁.fs = s₁.fs ∧ DraftEdits g I D₁ D₂ ∧ D₂.fs = s₂.fs := by
  have hvalid := hs.valid newIno hnewL
  have hbs : s.fs.blockSize = g.blockSize := congrArg Geometry.blockSize (geometry_eq hs hD)
  obtain ⟨hlater₁, D₁, hedits₁, hfs₁, -, hsizes₁⟩ := addDirEntry_edits hs hD hnew (fun _ => hnewL)
    (fun _ => .inr (.inr (blocksIn_lt (hbs ▸ hs.sane.blockSize_pos) (by omega)))) h₁
  have hs₁ := hs.edits hedits₁
  have hbs₁ : s₁.fs.blockSize = g.blockSize := congrArg Geometry.blockSize (geometry_eq hs₁ hfs₁)
  have hsize₁ := hsizes₁ newIno hvalid
  obtain ⟨hlater₂, D₂, hedits₂, hfs₂, -, -⟩ := addDirEntry_edits hs₁ hfs₁ hnew
    (fun _ => hnewL) (fun _ => .inr (.inr (blocksIn_lt (hbs₁ ▸ hs.sane.blockSize_pos) (by omega)))) h₂
  exact ⟨hlater₁.trans hlater₂, D₁, D₂, hedits₁, hfs₁, hedits₂, hfs₂⟩

theorem fillDir_edits (hino : g.ValidIno ino → ino ∈ L) (hnewL : newIno ∈ L)
    (hsize : g.size s.fs.device newIno ≤ g.blockSize) :
    Later s (s.fillDir newIno ino) ∧ ∃ D', DraftEdits g I D D' ∧ D'.fs = (s.fillDir newIno ino).fs := by
  unfold fillDir
  dsimp only
  generalize (fun i : ℕ => if i = 0 then (46 : UInt8) else 0) = dot
  generalize (fun i : ℕ => if i < 2 then (46 : UInt8) else 0) = dotdot
  rcases h₁ : s.addDirEntry newIno dot newIno 2 with ⟨r₁, s₁⟩
  rcases h₂ : s₁.addDirEntry newIno dotdot ino 2 with ⟨r₂, s₂⟩
  obtain ⟨hlater₂, D₁, D₂, hedits₁, -, hedits₂, hfs₂⟩ := fillEntries_edits hs hD hnew hnewL hsize h₁ h₂
  have hedits₂ := Relation.ReflTransGen.trans hedits₁ hedits₂
  have hs₂ := hs.edits hedits₂
  dsimp only
  rcases hread : s₂.readInode ino with ⟨v?, s₃⟩
  obtain ⟨hfs₃, hlater₃, hsome, -⟩ := readInode_eq (geometry_eq hs₂ hfs₂) hs.sane hread
  have hlater₃ := hlater₂.trans hlater₃
  have hD₃ := hfs₂.trans hfs₃.symm
  dsimp only
  split
  · exact ⟨hlater₃, D₂, hedits₂, hD₃⟩
  · next v =>
    obtain ⟨hino', rfl⟩ := hsome v rfl
    generalize hv : ext4Inode.set _ 0 .linksCount _ = v'
    have hroot : Geometry.Rooted D₂.root ino v' := by
      have htable := hs₂.table ino (hino hino')
      rw [hfs₂] at htable
      rw [← hv]
      exact htable.set_field (by simp)
    rcases hwrite : s₃.writeInode ino v' with ⟨ret, s₄⟩
    obtain ⟨hlater₄, D₄, hedits₄, hfs₄, -⟩ := writeInode_edits hs₂ hD₃ hI hroot hwrite
    exact ⟨hlater₃.trans hlater₄, D₄, Relation.ReflTransGen.trans hedits₂ hedits₄, hfs₄⟩

end

theorem sound_newInode {g : Geometry} {L : Set ℕ} {D : Draft} {newIno : ℕ} (hs : Sound g L D)
    (hvalid : g.ValidIno newIno) (mode : ℕ) :
    DraftEdit g newIno D { D with fs := D.fs.putInode newIno (newInode mode) } ∧
      Sound g (insert newIno L) { D with fs := D.fs.putInode newIno (newInode mode) } := by
  have hroot : Geometry.Rooted D.root newIno (newInode mode) :=
    fun k hk => absurd (iBlock_newInode mode k) hk
  refine ⟨.putInode hvalid hroot, (hs.putInode hvalid fun _ => hroot).adopt hvalid ?_⟩
  apply hroot.congr
  intro k
  exact Geometry.iBlock_congr fun i hi => Ext4Fs.inode_putInode_self hs.geometry hs.sane hi

theorem canZero_newInode {g : Geometry} {s s' : Ext4} {newIno parent mode : ℕ} (hg : g.Sane)
    (hgeo : s.fs.geometry = g) (hlater : Later s s') (hvalid : g.ValidIno newIno)
    (hparent : g.ValidIno parent) (hfs : s'.fs.geometry = g)
    (hput : ∃ fs₁ : Ext4Fs, fs₁.geometry = g ∧ s'.fs = fs₁.putInode newIno (newInode mode) ∧
      g.inode fs₁.device parent = g.inode s.fs.device parent)
    (hzero : s.CanZero (g.inode s.fs.device parent) (s.blocksIn (g.size s.fs.device parent))) :
    s'.CanZero (g.inode s'.fs.device parent) (s'.blocksIn (g.size s'.fs.device parent)) := by
  obtain ⟨fs₁, hgeo₁, hput, hinode⟩ := hput
  have hbs : s.fs.blockSize = g.blockSize := congrArg Geometry.blockSize hgeo
  have hbs' : s'.fs.blockSize = g.blockSize := congrArg Geometry.blockSize hfs
  by_cases hsame : parent = newIno
  · subst hsame
    have hsize : g.size s'.fs.device parent = 0 := by
      rw [hput, ← size_newInode mode]
      exact Geometry.field_congr fun j hj => Ext4Fs.inode_putInode_self hgeo₁ hg hj
    rw [hsize]
    exact .inr (.inr (blocksIn_lt (hbs' ▸ hg.blockSize_pos) (Nat.zero_le _)))
  · have hbytes : ∀ j < ext4Inode.size,
        g.inode s'.fs.device parent j = g.inode s.fs.device parent j := by
      intro j hj
      rw [hput, Ext4Fs.inode_putInode_of_ne hgeo₁ hg hvalid hparent hsame hj, hinode]
    have hblocks (n : ℕ) : s'.blocksIn n = s.blocksIn n := by rw [blocksIn, blocksIn, hbs, hbs']
    rw [Geometry.size_congr hbytes, hblocks]
    refine hzero.later hlater fun hne => ?_
    rw [Geometry.iBlock_congr hbytes]
    exact hne

theorem linkInode_edits {g : Geometry} {L : Set ℕ} {D : Draft} {s s' : Ext4}
    {parent newIno mode fileType : ℕ} {name : Bytes} {n r : ℤ} (hs : Sound g (insert newIno L) D)
    (hD : D.fs = s.fs) (hparent : g.ValidIno parent → parent ∈ L)
    (hheld : ((newIno - 1) / g.inodesPerGroup, (newIno - 1) % g.inodesPerGroup) ∈ D.inodes)
    (hsize : g.size s.fs.device newIno = 0)
    (hzero : g.ValidIno parent →
      s.CanZero (g.inode s.fs.device parent) (s.blocksIn (g.size s.fs.device parent)))
    (h : (let (ret, s) := s.addDirEntry parent name newIno fileType
      if ret < 0 then ((-1 : ℤ), (s.freeInode newIno).2)
      else if mode &&& ext4SIfdir ≠ 0 then (n, s.fillDir newIno parent)
      else (n, s)) = (r, s')) :
    Later s s' ∧ (r = -1 ∨ r = n) ∧
      ∃ D', DraftEdits g (insert parent {newIno}) D D' ∧ D'.fs = s'.fs := by
  have hI : parent ∈ insert parent ({newIno} : Set ℕ) := Set.mem_insert _ _
  have hL : g.ValidIno parent → parent ∈ insert newIno L := fun hvalid =>
    Set.mem_insert_of_mem _ (hparent hvalid)
  rcases hadd : s.addDirEntry parent name newIno fileType with ⟨ret, s₁⟩
  obtain ⟨hlater₁, D₁, hedits₁, hfs₁, hinodes₁, hsizes₁⟩ := addDirEntry_edits hs hD hI hL hzero hadd
  have hs₁ := hs.edits hedits₁
  rw [hadd] at h
  dsimp only at h
  split at h
  · rcases hfree : s₁.freeInode newIno with ⟨ret', s₂⟩
    obtain ⟨hlater₂, D₂, hedits₂, hfs₂⟩ :=
      freeInode_edits hs₁ hfs₁ hI (hinodes₁ ▸ hheld) hfree
    rw [hfree] at h
    obtain ⟨rfl, rfl⟩ := Prod.mk.inj h
    exact ⟨hlater₁.trans hlater₂, .inl rfl, D₂, Relation.ReflTransGen.trans hedits₁ hedits₂, hfs₂⟩
  · split at h
    · obtain ⟨rfl, rfl⟩ := Prod.mk.inj h
      have hsize₁ := hsizes₁ newIno (hs.valid newIno (Set.mem_insert _ _))
      rw [hsize, Nat.zero_add] at hsize₁
      obtain ⟨hlater₂, D₂, hedits₂, hfs₂⟩ := fillDir_edits hs₁ hfs₁ hI
        (Set.mem_insert_of_mem _ rfl) hL (Set.mem_insert _ _) hsize₁
      exact ⟨hlater₁.trans hlater₂, .inr rfl, D₂, Relation.ReflTransGen.trans hedits₁ hedits₂, hfs₂⟩
    · obtain ⟨rfl, rfl⟩ := Prod.mk.inj h
      exact ⟨hlater₁, .inr rfl, D₁, hedits₁, hfs₁⟩

theorem createFile_edits {g : Geometry} {L : Set ℕ} {D : Draft} {s s' : Ext4} {parent mode : ℕ}
    {name : Bytes} {r : ℤ} (hs : Sound g L D) (hD : D.fs = s.fs)
    (hparent : g.ValidIno parent → parent ∈ L)
    (hzero : g.ValidIno parent →
      s.CanZero (g.inode s.fs.device parent) (s.blocksIn (g.size s.fs.device parent)))
    (h : s.createFile parent name mode = (r, s')) :
    Later s s' ∧ ∃ N D', DraftEdits g (insert parent N) D D' ∧ D'.fs = s'.fs ∧ Sound g (N ∪ L) D' ∧
      (0 ≤ r → r.toNat ∈ N) := by
  unfold createFile at h
  rcases halloc : s.allocInode (s.inodeGroup parent) with ⟨n, s₁⟩
  obtain ⟨hlater₁, hcases⟩ := allocInode_eq (geometry_eq hs hD) hs.sane halloc
  rw [halloc] at h
  dsimp only at h
  -- no inode to count: nothing was written to one
  have hnone {D₁ : Draft} {s₁ : Ext4} (hlater : Later s s₁) (hedits : DraftEdits g (insert parent ∅) D D₁)
      (hfs : D₁.fs = s₁.fs) (h : ((-1 : ℤ), s₁) = (r, s')) :
      Later s s' ∧ ∃ N D', DraftEdits g (insert parent N) D D' ∧ D'.fs = s'.fs ∧ Sound g (N ∪ L) D' ∧
        (0 ≤ r → r.toNat ∈ N) := by
    obtain ⟨rfl, rfl⟩ := Prod.mk.inj h
    refine ⟨hlater, ∅, D₁, hedits, hfs, ?_, fun hpos => absurd hpos (by decide)⟩
    rw [Set.empty_union]
    exact hs.edits hedits
  rcases hcases with ⟨hneg, hsame⟩ | ⟨group, index, hgroup, hindex, hclear, hfs₁, hn⟩
  · rw [if_pos hneg] at h
    exact hnone hlater₁ .refl (hD.trans hsame.symm) h
  · rw [← hD] at hclear hfs₁
    have htake : Work g parent D _ := .takeInode hgroup hindex hclear
    have hs₁ := hs.work htake
    split at h
    · exact hnone hlater₁ (.single ⟨parent, Set.mem_insert _ _, .work htake⟩) hfs₁.symm h
    · next hpos =>
      obtain ⟨-, hn⟩ := hn.resolve_left hpos
      generalize hnew : n.toNat = newIno at h hn
      have hsub : newIno - 1 = g.inodesPerGroup * group + index := by
        rw [hn, Nat.mul_comm]
        omega
      have hdiv : (newIno - 1) / g.inodesPerGroup = group := by
        rw [hsub, Nat.mul_add_div hs.sane.inodes_pos, Nat.div_eq_of_lt hindex, Nat.add_zero]
      have hmod : (newIno - 1) % g.inodesPerGroup = index := by
        rw [hsub, Nat.mul_add_mod, Nat.mod_eq_of_lt hindex]
      have hvalid : g.ValidIno newIno := ⟨by omega, by rw [hdiv]; exact hgroup⟩
      have hheld : ((newIno - 1) / g.inodesPerGroup, (newIno - 1) % g.inodesPerGroup) ∈
          insert (group, index) D.inodes := by
        rw [hdiv, hmod]
        exact Finset.mem_insert_self _ _
      rcases hwrite : s₁.writeInode newIno (newInode mode) with ⟨ret, s₂⟩
      have hgeo₁ := geometry_eq hs₁ hfs₁.symm
      obtain ⟨hlater₂, hcases⟩ := writeInode_eq hgeo₁ hwrite
      have hlater₂ := hlater₁.trans hlater₂
      rw [hwrite] at h
      dsimp only at h
      rcases hcases with ⟨rfl, hsame, -⟩ | ⟨rfl, -, hput⟩
      · rcases hfree : s₂.freeInode newIno with ⟨ret, s₃⟩
        obtain ⟨hlater₃, D₃, hedits₃, hfs₃⟩ := freeInode_edits hs₁ (hfs₁.symm.trans hsame.symm)
          (Set.mem_insert parent ∅) hheld hfree
        rw [hfree] at h
        exact hnone (hlater₂.trans hlater₃)
          (.head ⟨parent, Set.mem_insert _ _, .work htake⟩ hedits₃) hfs₃ h
      · rw [if_neg (by decide)] at h
        obtain ⟨hedit₂, hs₂⟩ := sound_newInode hs₁ hvalid mode
        have hfs₂ : (D.fs.takeBit .inode group index).putInode newIno (newInode mode) = s₂.fs := by
          rw [hput, hfs₁]
        have hgeo₂ : s₂.fs.geometry = g := by rw [← hfs₂, Ext4Fs.geometry_putInode, ← hfs₁, hgeo₁]
        have hsize₂ : g.size s₂.fs.device newIno = 0 := by
          rw [hput, ← size_newInode mode]
          exact Geometry.field_congr fun j hj => Ext4Fs.inode_putInode_self hgeo₁ hs.sane hj
        have hzero₂ (hp : g.ValidIno parent) := canZero_newInode hs.sane (geometry_eq hs hD) hlater₂
          hvalid hp hgeo₂ ⟨_, hgeo₁, hput, by rw [hfs₁, hs.inode_work htake hp, hD]⟩ (hzero hp)
        obtain ⟨hlater₃, hr, D₃, hedits₃, hfs₃⟩ :=
          linkInode_edits hs₂ hfs₂ hparent hheld hsize₂ hzero₂ h
        refine ⟨hlater₂.trans hlater₃, {newIno}, D₃, ?_, hfs₃, ?_, ?_⟩
        · exact .head ⟨parent, Set.mem_insert _ _, .work htake⟩
            (.head ⟨newIno, Set.mem_insert_of_mem _ rfl, hedit₂⟩ hedits₃)
        · rw [Set.singleton_union]
          exact hs₂.edits hedits₃
        · rcases hr with rfl | rfl
          · exact fun hneg => absurd hneg (by decide)
          · exact fun _ => hnew

end GcAos.Fs
