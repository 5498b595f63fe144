import GcAos.Fs.Ext4File
import GcAos.Fs.Ext4Frame

/-! What `ext4_add_dir_entry` does where memory or the device may fail at any point. -/

namespace GcAos.Fs
open Lib Ext4 Draft

namespace Geometry

variable {g : Geometry} {device device' : ℕ → Bytes} {b : ℕ}

theorem Data.of_used (h : g.Data device b) (hused : g.used device b = true → g.used device' b = true) :
    g.Data device' b :=
  ⟨h.inRange, hused h.used, h.not_reserved⟩

def KeepsFields (g : Geometry) (device device' : ℕ → Bytes) : Prop :=
  ∀ i, g.ValidIno i → ∀ f : InodeField, f ≠ .sizeLo → f ≠ .blocksLo → (∀ k, f ≠ .block k) →
    ext4Inode.get (g.inode device' i) 0 f = ext4Inode.get (g.inode device i) 0 f

theorem KeepsFields.of_inode (h : ∀ i, g.ValidIno i → g.inode device' i = g.inode device i) :
    g.KeepsFields device device' := by
  intro i hi f _ _ _
  rw [h i hi]

end Geometry

namespace Ext4

section
variable {g : Geometry} {I L : Set ℕ} {D : Draft} {s s' : Ext4} {ino : ℕ} {v v' : Bytes} {r : ℤ}
  (hs : Sound g L D) (hD : D.fs = s.fs)
include hs hD

theorem allocBlock_device {preferred : ℕ} {n : ℤ} (h : s.allocBlock preferred = (n, s')) {d : ℕ}
    (hd : ¬g.Reserved d) : s'.fs.device d = s.fs.device d := by
  have hgeo := geometry_eq hs hD
  rcases (allocBlock_eq hgeo hs.sane h).2 with ⟨-, hsame⟩ | ⟨group, index, hgroup, hindex, -, htake, -⟩
  · rw [hsame]
  · rw [htake, ← hD]
    refine hs.device_takeBit (hs.perGroup_block ▸ hindex) ?_
    rintro rfl
    exact hd (Geometry.reserved_place (a := .blockBitmap group) hgroup)

theorem freeBlock_device {b : ℕ} (hb : b ∈ D.held) (h : s.freeBlock b = (r, s')) {d : ℕ}
    (hd : ¬g.Reserved d) : s'.fs.device d = s.fs.device d := by
  have hrange := (hs.held b hb).inRange
  have hgroup := hs.sane.groupOf_lt hrange
  rcases (freeBlock_eq (geometry_eq hs hD) hs.sane hrange h).2 with hsame | hdrop
  · rw [hsame]
  · rw [hdrop, ← hD]
    refine hs.device_dropBit (hs.perGroup_block ▸ hs.sane.indexOf_lt) ?_
    rintro rfl
    exact hd (Geometry.reserved_place (a := .blockBitmap _) hgroup)

variable (hI : ino ∈ I) (hv : Geometry.Rooted D.root ino v)
include hI hv

theorem makeIndirect_keeps {group : ℕ} (h : s.makeIndirect v group = (r, v', s')) :
    ∃ D', Makes g I D s s' D' ∧ D'.root = D.root ∧ D.held ⊆ D'.held ∧
      (∀ d, d ∈ D.held ∨ D.Leaf g ino d → s'.fs.device d = s.fs.device d) ∧
      (0 ≤ r → iBlock v' ext4IndBlock ≠ 0 ∧ (D'.root (ino, ext4IndBlock) (iBlock v' ext4IndBlock) ∨
        iBlock v' ext4IndBlock ∈ D'.held ∧ ∀ d, d ∈ D.held ∨ D.Leaf g ino d →
          d ≠ iBlock v' ext4IndBlock)) := by
  have hnres {d : ℕ} (hd : d ∈ D.held ∨ D.Leaf g ino d) : ¬g.Reserved d := by
    rcases hd with hd | ⟨k, p, hr, -⟩
    · exact (hs.held d hd).not_reserved
    · exact (hs.data _ _ _ hr).not_reserved
  -- a new block is not one of those that were there
  have hfresh {n : ℤ} {s₁ : Ext4} (halloc : s.allocBlock group = (n, s₁)) (hpos : 0 ≤ n) {v₁ : Bytes}
      (hv₁ : v₁ = ext4Inode.set v 0 (.block ext4IndBlock) n.toNat) :
      iBlock v₁ ext4IndBlock = n.toNat ∧ iBlock v₁ ext4IndBlock ≠ 0 ∧
        ∀ d, d ∈ D.held ∨ D.Leaf g ino d → d ≠ iBlock v₁ ext4IndBlock := by
    obtain ⟨-, hlt, hres, hheld, hrefs, -⟩ := allocBlock_fresh hs hD halloc hpos
    have hptr : iBlock v₁ ext4IndBlock = n.toNat := by
      rw [hv₁]
      exact Geometry.iBlock_set_self hlt
    rw [hptr]
    refine ⟨rfl, fun hz => hres (.inl hz), ?_⟩
    rintro d hd rfl
    rcases hd with hd | ⟨k, p, hr, -⟩
    · exact hheld hd
    · exact hrefs _ _ hr
  cases makeIndirect_route h with
  | there hsome =>
    exact ⟨D, .stay hD (.refl _) rfl, rfl, Finset.Subset.refl _, fun _ _ => rfl,
      fun _ => ⟨hsome, .inl (hv _ hsome)⟩⟩
  | full _ halloc =>
    obtain ⟨D₁, hmakes₁, hroot₁, hheld₁, -⟩ := allocBlock_makes hs hD hI halloc
    exact ⟨D₁, hmakes₁, hroot₁, hheld₁, fun d hd => allocBlock_device hs hD halloc (hnres hd),
      fun hpos => absurd hpos (by decide)⟩
  | unzeroed _ halloc hpos hlater hsame =>
    obtain ⟨D₁, hmakes₁, hroot₁, hheld₁, hmem⟩ := allocBlock_makes hs hD hI halloc
    obtain ⟨hptr, hne, hapart⟩ := hfresh halloc hpos rfl
    refine ⟨D₁, hmakes₁.trans (.stay hmakes₁.fs hlater hsame), hroot₁, hheld₁, fun d hd => ?_,
      fun _ => ⟨hne, .inr ⟨?_, hapart⟩⟩⟩
    · rw [hsame, allocBlock_device hs hD halloc (hnres hd)]
    · rw [hptr]
      exact (hmem hpos).1
  | zeroed _ halloc hpos hlater hput =>
    obtain ⟨D₁, hmakes₁, hroot₁, hheld₁, hmem⟩ := allocBlock_makes hs hD hI halloc
    obtain ⟨hptr, hne, hapart⟩ := hfresh halloc hpos rfl
    have hmakes₂ := Makes.single (hs.edits hmakes₁.edits) hmakes₁.fs hI hlater
      (.write _ (.inl (hmem hpos).1)) (by rw [hput, hmakes₁.fs]) (fun _ _ => id) rfl
    refine ⟨_, hmakes₁.trans hmakes₂, hroot₁, hheld₁, fun d hd => ?_,
      fun _ => ⟨hne, .inr ⟨?_, hapart⟩⟩⟩
    · rw [hput, Ext4Fs.device_putBlock_of_ne (hptr ▸ hapart d hd),
        allocBlock_device hs hD halloc (hnres hd)]
    · rw [hptr]
      exact (hmem hpos).1

theorem setFileBlock_keeps {fb b : ℕ} (hb : b ∈ D.held) (h : s.setFileBlock v fb b ino = (r, v', s')) :
    ∃ D', Makes g I D s s' D' ∧ (r < 0 → b ∈ D'.held) ∧
      (∀ d, d ∈ D.held ∨ D.Leaf g ino d → s'.fs.device d = s.fs.device d) ∧
      (0 ≤ r → g.Data s'.fs.device b ∧
        (ext4NdirBlocks ≤ fb → g.Data s'.fs.device (iBlock v' ext4IndBlock))) := by
  have hptrs : s.fs.ptrsPerBlock = g.shape.arity := by
    rw [← geometry_eq hs hD]
    rfl
  cases setFileBlock_route h with
  | direct hdir =>
    refine ⟨D, .stay hD (.refl _) rfl, fun _ => hb, fun _ _ => rfl, fun _ => ⟨?_, fun hle => ?_⟩⟩
    · rw [← hD]
      exact hs.held b hb
    · exact absurd hdir (not_lt.mpr hle)
  | unreached =>
    exact ⟨D, .stay hD (.refl _) rfl, fun _ => hb, fun _ _ => rfl, fun hpos => absurd hpos (by decide)⟩
  | unmade _ _ hmake =>
    obtain ⟨D₁, hmakes₁, -, hheld₁, hdev₁, -⟩ := makeIndirect_keeps hs hD hI hv hmake
    exact ⟨D₁, hmakes₁, fun _ => hheld₁ hb, hdev₁, fun hpos => absurd hpos (by decide)⟩
  | unlinked _ _ hmake _ hlater hfs =>
    obtain ⟨D₁, hmakes₁, -, hheld₁, hdev₁, -⟩ := makeIndirect_keeps hs hD hI hv hmake
    refine ⟨D₁, hmakes₁.trans (.stay hmakes₁.fs hlater hfs), fun _ => hheld₁ hb, fun d hd => ?_,
      fun hpos => absurd hpos (by decide)⟩
    rw [hfs, hdev₁ d hd]
  | @linked _ v₁ s₁ _ _ hi hmake hret hlater hput =>
    obtain ⟨D₁, hmakes₁, hroot₁, hheld₁, hdev₁, hind⟩ := makeIndirect_keeps hs hD hI hv hmake
    have hs₁ := hs.edits hmakes₁.edits
    obtain ⟨hne, hind⟩ := hind hret
    rw [hptrs] at hi
    have hdata : g.Data s₁.fs.device (iBlock v' ext4IndBlock) := by
      rw [← hmakes₁.fs]
      rcases hind with hroot | ⟨hheld, -⟩
      · exact hs₁.data _ _ _ (.root hroot hne)
      · exact hs₁.held _ hheld
    have hused (d : ℕ) (hd : g.Data s₁.fs.device d) : g.Data s'.fs.device d := by
      refine hd.of_used fun hd' => ?_
      rw [hput, Draft.Sound.used_putBlock hs.sane hdata.not_reserved hd.inRange]
      exact hd'
    have hb₁' : g.Data s₁.fs.device b := by
      rw [← hmakes₁.fs]
      exact hs₁.held b (hheld₁ hb)
    rcases hind with hroot | ⟨hheld, hapart⟩
    · -- the block was there, and the pointer is linked in it
      have hlink := Work.link hroot hne hi (hheld₁ hb)
      have hmakes := hmakes₁.trans (.single hs₁ hmakes₁.fs hI hlater hlink (by rw [hput, hmakes₁.fs])
        (fun _ _ => id) rfl)
      refine ⟨_, hmakes, fun hneg => absurd hneg (lt_irrefl (0 : ℤ)), fun d hd => ?_,
        fun _ => ⟨hused b hb₁', fun _ => hused _ hdata⟩⟩
      rw [hput, ← hdev₁ d hd]
      apply Ext4Fs.device_putBlock_of_ne
      rintro rfl
      rw [hroot₁] at hroot
      have href : D.Refs g (ino, ext4IndBlock) [] (iBlock v' ext4IndBlock) := .root hroot hne
      rcases hd with hd | ⟨k, p, hleaf, hlen⟩
      · exact hs.fresh _ hd _ _ href
      · exact hs.owned.ne_of_leaf hleaf hlen href (show 0 < 1 from Nat.zero_lt_one) rfl
    · -- the block is new, and nothing leads to it yet
      have hmakes := hmakes₁.trans (.single hs₁ hmakes₁.fs hI hlater (.write _ (.inl hheld))
        (by rw [hput, hmakes₁.fs]) (fun _ _ => id) rfl)
      refine ⟨_, hmakes, fun hneg => absurd hneg (lt_irrefl (0 : ℤ)), fun d hd => ?_,
        fun _ => ⟨hused b hb₁', fun _ => hused _ hdata⟩⟩
      rw [hput, ← hdev₁ d hd]
      exact Ext4Fs.device_putBlock_of_ne (hapart d hd)

end

theorem newBlock_written {g : Geometry} {I L : Set ℕ} {D : Draft} {s s₁ s₂ : Ext4}
    {ino preferred : ℕ} {v blk : Bytes} {n r : ℤ} (hs : Sound g L D) (hD : D.fs = s.fs)
    (hI : ino ∈ I) (hv : Geometry.Rooted D.root ino v) (halloc : s.allocBlock preferred = (n, s₁))
    (hn : 0 ≤ n) (hwrite : s₁.writeBlockRaw n.toNat blk = (r, s₂)) (hr : 0 ≤ r) :
    ∃ D₂, Makes g I D s s₂ D₂ ∧ Geometry.Rooted D₂.root ino v ∧ n.toNat ∈ D₂.held ∧
      (∀ d, ¬g.Reserved d → d ≠ n.toNat → s₂.fs.device d = s.fs.device d) ∧
      (∀ i < g.blockSize, s₂.fs.device n.toNat i = blk i) ∧
      ∀ fb, g.fileBlock s₂.fs.device v fb = g.fileBlock s.fs.device v fb := by
  obtain ⟨D₁, hmakes₁, hroot₁, -, hmem⟩ := allocBlock_makes hs hD hI halloc
  obtain ⟨hgeo₁, -, -, -, hrefs, hdev₁⟩ := allocBlock_fresh hs hD halloc hn
  obtain ⟨D₂, hmakes₂, hroot₂, hheld₂⟩ :=
    writeBlockRaw_makes (hs.edits hmakes₁.edits) hmakes₁.fs hI (.inl (hmem hn).1) hwrite
  obtain ⟨-, hput⟩ := (writeBlockRaw_eq hwrite).2.resolve_left fun hfail => by
    rw [hfail.1] at hr
    exact absurd hr (by decide)
  have hdev₂ : ∀ d, ¬g.Reserved d → d ≠ n.toNat → s₂.fs.device d = s.fs.device d := by
    intro d hd hne
    rw [hput, Ext4Fs.device_putBlock_of_ne hne, hdev₁ d hd]
  refine ⟨D₂, hmakes₁.trans hmakes₂, by rw [hroot₂, hroot₁]; exact hv, hheld₂ ▸ (hmem hn).1, hdev₂,
    ?_, ?_⟩
  · intro i hi
    have hsize : s₁.fs.blockSize = g.blockSize := congrArg Geometry.blockSize hgeo₁
    rw [hput]
    exact Ext4Fs.device_putBlock_self (hsize ▸ hi)
  · intro fb
    apply Geometry.fileBlock_congr hv
    intro k p d hd _
    rw [← hD] at hd
    exact hdev₂ d (hs.data _ _ _ hd).not_reserved fun heq => hrefs _ _ (heq ▸ hd)

/-- A successful `appendDirBlock`: the block `b` with the bytes `blk` becomes the next file block of
`v`, and the inode `v'` goes to the table. -/
structure Appends (g : Geometry) (s s₁ s' : Ext4) (ino : ℕ) (v v' blk : Bytes) (b : ℕ) : Prop where
  valid : g.ValidIno ino
  geometry : s₁.fs.geometry = g
  put : s'.fs = s₁.fs.putInode ino v'
  reach : s.blocksIn (ext4Inode.get v 0 .sizeLo) < ext4NdirBlocks + g.shape.arity
  size : ext4Inode.get v' 0 .sizeLo = (ext4Inode.get v 0 .sizeLo + g.blockSize) % 2 ^ 32
  fields : ∀ f : InodeField, f ≠ .sizeLo → f ≠ .blocksLo → (∀ k, f ≠ .block k) →
    ext4Inode.get v' 0 f = ext4Inode.get v 0 f
  block : g.Data s₁.fs.device b
  indirect : ext4NdirBlocks ≤ s.blocksIn (ext4Inode.get v 0 .sizeLo) →
    g.Data s₁.fs.device (iBlock v' ext4IndBlock)
  map : ∀ device, (∀ c, ¬g.Reserved c → device c = s₁.fs.device c) → ∀ fb,
    fb < ext4NdirBlocks ∨ fb = s.blocksIn (ext4Inode.get v 0 .sizeLo) ∨
      iBlock v ext4IndBlock ≠ 0 ∨ s.kmallocs = [] ∧ s.ios = [] →
    g.fileBlock device v' fb =
      if fb = s.blocksIn (ext4Inode.get v 0 .sizeLo) then b else g.fileBlock s.fs.device v fb
  new : ∀ i < g.blockSize, s₁.fs.device b i = blk i

section
variable {g : Geometry} {I L : Set ℕ} {D : Draft} {s s' : Ext4} {dirIno ino fileType : ℕ}
  {v name : Bytes} {r : ℤ} (hs : Sound g L D) (hD : D.fs = s.fs) (hI : dirIno ∈ I)
  (hv : Geometry.Rooted D.root dirIno v)
include hs hD hI hv

theorem appendDirBlock_ends (h : s.appendDirBlock dirIno v name ino fileType = (r, s')) :
    ∃ s₁ D₁, Makes g I D s s₁ D₁ ∧
      (∀ fb, g.fileBlock s.fs.device v fb ≠ 0 →
        s₁.fs.device (g.fileBlock s.fs.device v fb) = s.fs.device (g.fileBlock s.fs.device v fb)) ∧
      (r < 0 ∧ s'.fs = s₁.fs ∨ r = 0 ∧ ∃ v' b, Appends g s s₁ s' dirIno v v'
        (putEntry (fun _ => 0) 0 ino g.blockSize fileType name) b) := by
  have hleaf (fb : ℕ) (hfb : g.fileBlock s.fs.device v fb ≠ 0) :
      D.Leaf g dirIno (g.fileBlock s.fs.device v fb) :=
    leaf_fileBlock hs (congrArg Ext4Fs.device hD.symm) hv hfb
  have hnres (fb : ℕ) (hfb : g.fileBlock s.fs.device v fb ≠ 0) :
      ¬g.Reserved (g.fileBlock s.fs.device v fb) := by
    obtain ⟨k, p, hr, -⟩ := hleaf fb hfb
    exact (hs.data _ _ _ hr).not_reserved
  unfold appendDirBlock at h
  rcases halloc : s.allocBlock (s.inodeGroup dirIno) with ⟨n, s₁⟩
  obtain ⟨D₁, hmakes₁, hroot₁, -, hmem⟩ := allocBlock_makes hs hD hI halloc
  have hs₁ := hs.edits hmakes₁.edits
  dsimp only at h
  rw [halloc] at h
  dsimp only at h
  split at h
  · cases h
    exact ⟨_, D₁, hmakes₁, fun fb hfb => allocBlock_device hs hD halloc (hnres fb hfb),
      .inl ⟨by decide, rfl⟩⟩
  next hpos =>
  have hsize₁ : s₁.fs.blockSize = g.blockSize :=
    congrArg Geometry.blockSize (geometry_eq hs₁ hmakes₁.fs)
  rw [hsize₁] at h
  rcases hwrite : s₁.writeBlockRaw n.toNat (putEntry (fun _ => 0) 0 ino g.blockSize fileType name)
    with ⟨ret, s₂⟩
  rw [hwrite] at h
  dsimp only at h
  split at h
  · -- the new block could not be written
    next hret =>
    have hheld₁ := (hmem (not_lt.mp hpos)).1
    have hsame : s₂.fs = s₁.fs := by
      rcases (writeBlockRaw_eq hwrite).2 with ⟨-, hsame, -⟩ | ⟨rfl, -⟩
      · exact hsame
      · exact absurd hret (lt_irrefl 0)
    have hD₂ := hmakes₁.fs.trans hsame.symm
    rcases hfree : s₂.freeBlock n.toNat with ⟨ret', s₃⟩
    obtain ⟨D₃, hmakes₃, -⟩ := freeBlock_makes hs₁ hD₂ hI hheld₁ hfree
    rw [hfree] at h
    cases h
    refine ⟨_, D₃, hmakes₁.trans (.trans (.stay hmakes₁.fs (writeBlockRaw_eq hwrite).1 hsame) hmakes₃),
      fun fb hfb => ?_, .inl ⟨by decide, rfl⟩⟩
    rw [freeBlock_device hs₁ hD₂ hheld₁ hfree (hnres fb hfb), hsame,
      allocBlock_device hs hD halloc (hnres fb hfb)]
  next hret =>
  obtain ⟨D₂, hmakes₂, hv₂, hb₂, hdev₂, hnew₂, hmap₂⟩ :=
    newBlock_written hs hD hI hv halloc (not_lt.mp hpos) hwrite (not_lt.mp hret)
  have hfresh := (allocBlock_fresh hs hD halloc (not_lt.mp hpos)).2.2.2.2.1
  have hs₂ := hs.edits hmakes₂.edits
  generalize n.toNat = b at h hb₂ hdev₂ hnew₂ hfresh
  rcases hset : s₂.setFileBlock v (s.blocksIn (ext4Inode.get v 0 .sizeLo)) b dirIno with
    ⟨ret', v₃, s₃⟩
  obtain ⟨D₃, hmakes₃, hheld₃, hdev₃, hdata₃⟩ := setFileBlock_keeps hs₂ hmakes₂.fs hI hv₂ hb₂ hset
  have hs₃ := hs₂.edits hmakes₃.edits
  have hold₃ (fb : ℕ) (hfb : g.fileBlock s.fs.device v fb ≠ 0) :
      s₃.fs.device (g.fileBlock s.fs.device v fb) = s.fs.device (g.fileBlock s.fs.device v fb) := by
    rw [hdev₃, hdev₂ _ (hnres fb hfb)]
    · rintro rfl
      obtain ⟨k, p, hr, -⟩ := hleaf fb hfb
      exact hfresh _ _ hr
    · rw [← hmap₂] at hfb ⊢
      exact .inr (leaf_fileBlock hs₂ (congrArg Ext4Fs.device hmakes₂.fs.symm) hv₂ hfb)
  have hmakes := hmakes₂.trans hmakes₃
  rw [hset] at h
  dsimp only at h
  split at h
  · next hneg =>
    rcases hfree : s₃.freeBlock b with ⟨ret, s₄⟩
    obtain ⟨D₄, hmakes₄, -⟩ := freeBlock_makes hs₃ hmakes₃.fs hI (hheld₃ hneg) hfree
    rw [hfree] at h
    cases h
    refine ⟨_, D₄, hmakes.trans hmakes₄, fun fb hfb => ?_, .inl ⟨by decide, rfl⟩⟩
    rw [freeBlock_device hs₃ hmakes₃.fs (hheld₃ hneg) hfree (hnres fb hfb), hold₃ fb hfb]
  next hok =>
  have hremap := setFileBlock_remapped hs₂ hmakes₂.fs hv₂ hb₂ hset (not_lt.mp hok)
  have hset₃ := setFileBlock_inode hset
  have hbs₃ : s₃.fs.blockSize = g.blockSize := congrArg Geometry.blockSize hremap.geometry
  rw [hset₃.get_eq (f := .sizeLo) (by simp), hbs₃] at h
  generalize hv₄ : ext4Inode.set _ 0 .blocksLo _ = v₄ at h
  have hptr₄ (k : Fin 15) : iBlock v₄ k = iBlock v₃ k := by
    rw [← hv₄, Geometry.iBlock_set_of_ne (by simp), Geometry.iBlock_set_of_ne (by simp)]
  obtain ⟨hlater, ⟨rfl, hsame, -⟩ | ⟨rfl, hvalid, hput⟩⟩ := writeInode_eq hremap.geometry h
  · exact ⟨s₃, D₃, hmakes, hold₃, .inl ⟨by decide, hsame⟩⟩
  · refine ⟨s₃, D₃, hmakes, hold₃, .inr ⟨rfl, v₄, b,
      { valid := hvalid
        geometry := hremap.geometry
        put := hput
        reach := hremap.reach
        size := ?_
        fields := fun f hsize hblocks hblock => ?_
        block := (hdata₃ (not_lt.mp hok)).1
        indirect := fun hle => ?_
        map := fun device hdev fb hfb => ?_
        new := fun i hi => ?_ }⟩⟩
    · rw [← hv₄, Layout.get_set_of_field_ne (by simp)]
      exact Layout.get_set_self
    · rw [← hv₄, Layout.get_set_of_field_ne hblocks.symm, Layout.get_set_of_field_ne hsize.symm,
        hset₃.get_eq hblock]
    · rw [hptr₄]
      exact (hdata₃ (not_lt.mp hok)).2 hle
    · rw [Geometry.fileBlock_inode_congr hptr₄, hremap.map device hdev fb ?_, hmap₂]
      exact hfb.imp_right (Or.imp_right (Or.imp_right fun hquiet =>
        ⟨hmakes₂.later.kmallocs_nil hquiet.1, hmakes₂.later.ios_nil hquiet.2⟩))
    · rw [hdev₃ b (.inl hb₂)]
      exact hnew₂ i hi

end

end Ext4

end GcAos.Fs
