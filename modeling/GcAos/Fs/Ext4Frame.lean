import GcAos.Fs.Ext4Own

/-! What the ext4 calls leave alone: blocks of the device that no edit can reach, the parameters in
the superblock, and the inodes and files a call is not made for. -/

namespace GcAos.Fs
open Lib Ext4 Draft

/-- The block `c` is out of reach of edits for the inodes `I`: no metadata, not held, not among
their blocks and, if it lies in a group, marked used. -/
structure Draft.Outside (g : Geometry) (I : Set ℕ) (D : Draft) (c : ℕ) : Prop where
  not_area : ∀ a, g.Has a → c ≠ g.place a
  not_held : c ∉ D.held
  used : g.InRange c → g.used D.fs.device c = true
  not_refs : ∀ ino ∈ I, ∀ k p, ¬D.Refs g (ino, k) p c

namespace Draft.Sound

variable {g : Geometry} {L : Set ℕ} {D D' : Draft} {ino c : ℕ}

theorem perGroup_block (h : Sound g L D) : BitmapKind.block.perGroup D.fs = g.blocksPerGroup := by
  rw [← h.geometry]
  rfl

theorem perGroup_inode (h : Sound g L D) : BitmapKind.inode.perGroup D.fs = g.inodesPerGroup := by
  rw [← h.geometry]
  rfl

theorem refs_of_device {k : ℕ × Fin 15} {p : List ℕ} (hc : D'.Refs g k p c)
    (hroot : D'.root = D.root)
    (hdev : ∀ k p b, D.Refs g k p b → p.length < g.shape.depth k →
      D'.fs.device b = D.fs.device b) : D.Refs g k p c := by
  refine hc.mono (fun k b hb _ => hroot ▸ hb) fun k p b hb hp i _ => ?_
  rw [Geometry.word, Geometry.word, hdev k p b hb hp]

/-- The only new address an edit can make is that of a held block. -/
theorem refs_edit (h : Sound g L D) (hedit : DraftEdit g ino D D') {k : ℕ × Fin 15} {p : List ℕ}
    (hc : D'.Refs g k p c) : D.Refs g k p c ∨ c ∈ D.held := by
  cases hedit with
  | putInode hino _ =>
    refine .inl (refs_of_device hc rfl fun k p b hb _ => ?_)
    dsimp only
    rw [Ext4Fs.device_putInode h.geometry h.sane,
      Function.update_of_ne (h.ne_place hb (h.sane.has_inodeArea hino))]
  | work hwork =>
    cases hwork with
    | take hgroup hindex _ =>
      refine .inl (refs_of_device hc rfl fun k p b hb _ => ?_)
      exact h.device_takeBit (h.perGroup_block ▸ hindex) (h.ne_place hb (a := .blockBitmap _) hgroup)
    | drop hheld =>
      refine .inl (refs_of_device hc rfl fun k p b hb _ => ?_)
      exact h.device_dropBit (h.perGroup_block ▸ h.sane.indexOf_lt)
        (h.ne_place hb (a := .blockBitmap _) (h.sane.groupOf_lt (h.held _ hheld).inRange))
    | takeInode hgroup hindex _ =>
      refine .inl (refs_of_device hc rfl fun k p b hb _ => ?_)
      exact h.device_takeBit (h.perGroup_inode ▸ hindex) (h.ne_place hb (a := .inodeBitmap _) hgroup)
    | dropInode hx =>
      obtain ⟨hgroup, hindex, -⟩ := h.inodes _ hx
      refine .inl (refs_of_device hc rfl fun k p b hb _ => ?_)
      exact h.device_dropBit (h.perGroup_inode ▸ hindex) (h.ne_place hb (a := .inodeBitmap _) hgroup)
    | write _ hd =>
      refine .inl (refs_of_device hc rfl fun k p b hb hp => ?_)
      apply Ext4Fs.device_putBlock_of_ne
      rcases hd with hheld | ⟨k', p', hleaf, hlen⟩
      · rintro rfl
        exact h.fresh b hheld k p hb
      · exact h.owned.ne_of_leaf hleaf hlen hb hp
    | @link d i b hd hd₀ hi hb =>
      have hlt : b < 2 ^ 32 := (h.held b hb).inRange.2.trans_le h.sane.blocks_le
      have hcases := hc.of_setWord h.owned (.root hd hd₀) rfl
        (Geometry.ptrAt_setPtr h.geometry h.sane hi hlt) fun k' p' b' _ _ j _ hne => by
          by_cases hbd : b' = d
          · subst hbd
            exact Geometry.ptrAt_setPtr_of_ne h.geometry h.sane hi
              (hne.resolve_left fun hcon => hcon rfl)
          · rw [Geometry.word, Geometry.word, Ext4Fs.device_putBlock_of_ne hbd]
      rcases hcases with hold | ⟨-, -, rfl⟩
      · exact .inl hold
      · exact .inr hb
    | @hang k b hb hzero =>
      rcases hc.of_addRoot (fun _ _ hr _ => hr) hzero with hold | ⟨-, -, rfl⟩
      · exact .inl hold
      · exact .inr hb

theorem used_edit (h : Sound g L D) (hedit : DraftEdit g ino D D') (hrange : g.InRange c)
    (hheld : c ∉ D.held) (hused : g.used D.fs.device c = true) : g.used D'.fs.device c = true := by
  have hg := h.sane
  cases hedit with
  | putInode hino _ =>
    dsimp only
    rw [Ext4Fs.device_putInode h.geometry hg,
      hg.used_update (hg.has_inodeArea hino) (fun _ => Area.noConfusion) hrange, hused]
  | work hwork =>
    cases hwork with
    | take hgroup hindex _ =>
      dsimp only
      rw [Ext4Fs.device_takeBit h.geometry hg (h.perGroup_block ▸ hindex)]
      refine (hg.used_update_bitmap hgroup hindex hrange fun j hj => ?_).trans ?_
      · simp [hj, BitmapKind.area, Geometry.place]
      · rw [hused]
        simp
    | @drop b hb =>
      have hdata := h.held b hb
      dsimp only
      rw [Ext4Fs.device_dropBit h.geometry hg (h.perGroup_block ▸ hg.indexOf_lt)]
      refine (hg.used_update_bitmap (hg.groupOf_lt hdata.inRange) (hg.indexOf_lt (b := b)) hrange
        fun j hj => ?_).trans ?_
      · simp [hj, BitmapKind.area, Geometry.place]
      · have hne : c ≠ b := fun heq => hheld (heq ▸ hb)
        rw [Geometry.blockAt_groupOf hdata.inRange, if_neg hne, hused]
    | takeInode hgroup hindex _ =>
      dsimp only
      rw [Ext4Fs.device_takeBit h.geometry hg (h.perGroup_inode ▸ hindex)]
      exact (hg.used_update (a := .inodeBitmap _) hgroup (fun _ => Area.noConfusion) hrange).trans hused
    | dropInode hx =>
      obtain ⟨hgroup, hindex, -⟩ := h.inodes _ hx
      dsimp only
      rw [Ext4Fs.device_dropBit h.geometry hg (h.perGroup_inode ▸ hindex)]
      exact (hg.used_update (a := .inodeBitmap _) hgroup (fun _ => Area.noConfusion) hrange).trans hused
    | @write b _ hb =>
      have hres : ¬g.Reserved b := by
        rcases hb with hb | ⟨k, p, hr, _⟩
        · exact (h.held _ hb).not_reserved
        · exact (h.data _ _ _ hr).not_reserved
      exact (used_putBlock hg hres hrange).trans hused
    | link hd hd₀ _ _ =>
      exact (used_putBlock hg (h.data _ _ _ (.root hd hd₀)).not_reserved hrange).trans hused
    | hang => exact hused

theorem held_edit (hedit : DraftEdit g ino D D') (hc : c ∈ D'.held) : c ∈ D.held ∨
    ∃ group index, group < g.groupCount ∧ index < g.blocksPerGroup ∧
      (D.fs.device (g.blockBitmap group)).bit index = false ∧ c = g.blockAt group index := by
  cases hedit with
  | putInode _ _ => exact .inl hc
  | work hwork =>
    cases hwork with
    | take hgroup hindex hclear =>
      rcases Finset.mem_insert.mp hc with rfl | hold
      · exact .inr ⟨_, _, hgroup, hindex, hclear, rfl⟩
      · exact .inl hold
    | drop _ => exact .inl (Finset.mem_of_mem_erase hc)
    | takeInode _ _ _ => exact .inl hc
    | dropInode _ => exact .inl hc
    | write _ _ => exact .inl hc
    | link _ _ _ _ => exact .inl (Finset.mem_of_mem_erase hc)
    | hang _ _ => exact .inl (Finset.mem_of_mem_erase hc)

end Draft.Sound

namespace Draft.Outside

variable {g : Geometry} {I J L : Set ℕ} {D D' : Draft} {ino c : ℕ}

theorem edit (h : Outside g I D c) (hs : Sound g L D) (hino : ino ∈ I)
    (hedit : DraftEdit g ino D D') : Outside g I D' c ∧ D'.fs.device c = D.fs.device c := by
  refine ⟨⟨h.not_area, ?_, ?_, ?_⟩, ?_⟩
  · intro hheld
    rcases Sound.held_edit hedit hheld with hold | ⟨group, index, hgroup, hindex, hclear, rfl⟩
    · exact h.not_held hold
    · -- a used block is not handed out
      have hused := h.used (Geometry.inRange_blockAt hgroup hindex)
      rw [Sound.used_blockAt hindex, hclear] at hused
      cases hused
  · exact fun hrange => hs.used_edit hedit hrange h.not_held (h.used hrange)
  · intro i hi k p hr
    rcases hs.refs_edit hedit hr with hold | hheld
    · exact h.not_refs i hi k p hold
    · exact h.not_held hheld
  · cases hedit with
    | work hwork =>
      exact hs.device_work hwork (fun k group hk => h.not_area _ hk) h.not_held (h.not_refs ino hino)
    | putInode hvalid _ =>
      dsimp only
      rw [Ext4Fs.device_putInode hs.geometry hs.sane,
        Function.update_of_ne (h.not_area _ (hs.sane.has_inodeArea hvalid))]

theorem edits (h : Outside g J D c) (hs : Sound g L D) (hsub : I ⊆ J)
    (hedits : DraftEdits g I D D') : Outside g J D' c ∧ D'.fs.device c = D.fs.device c := by
  induction hedits with
  | refl => exact ⟨h, rfl⟩
  | tail hedits hlast ih =>
    obtain ⟨ino, hino, hedit⟩ := hlast
    obtain ⟨hout, hdev⟩ := ih.1.edit (hs.edits hedits) (hsub hino) hedit
    exact ⟨hout, hdev.trans ih.2⟩

theorem close (h : Outside g I D c) (hs : Sound g L D) : Outside g I (closed g L D.fs) c := by
  refine ⟨h.not_area, by simp [closed], h.used, fun i hi k p hr => h.not_refs i hi k p ?_⟩
  refine hr.mono ?_ fun _ _ _ _ _ _ _ => rfl
  rintro k b ⟨hk, rfl⟩ hb
  exact hs.table k.1 hk k.2 hb

end Draft.Outside

namespace Ext4Fs

variable {fs : Ext4Fs} {k : BitmapKind} {group index : ℕ}

def Parameter (f : SuperField) : Prop := ∀ k : BitmapKind, f ≠ k.superFree

theorem super_takeBit {f : SuperField} (hf : Parameter f) :
    (fs.takeBit k group index).super f = fs.super f := super_setSuper_of_ne (hf k).symm

theorem super_dropBit {f : SuperField} (hf : Parameter f) :
    (fs.dropBit k group index).super f = fs.super f := super_setSuper_of_ne (hf k).symm

end Ext4Fs

theorem Draft.super_edit {g : Geometry} {D D' : Draft} {ino : ℕ} {f : SuperField}
    (hf : Ext4Fs.Parameter f) (hedit : DraftEdit g ino D D') : D'.fs.super f = D.fs.super f := by
  cases hedit with
  | putInode _ _ => rfl
  | work hwork =>
    cases hwork with
    | take _ _ _ | takeInode _ _ _ => exact Ext4Fs.super_takeBit hf
    | drop _ | dropInode _ => exact Ext4Fs.super_dropBit hf
    | write _ _ | link _ _ _ _ | hang _ _ => rfl

theorem Draft.super_edits {g : Geometry} {I : Set ℕ} {D D' : Draft} {f : SuperField}
    (hf : Ext4Fs.Parameter f) (hedits : DraftEdits g I D D') : D'.fs.super f = D.fs.super f := by
  induction hedits with
  | refl => rfl
  | tail _ hlast ih =>
    obtain ⟨ino, -, hedit⟩ := hlast
    exact (super_edit hf hedit).trans ih

end GcAos.Fs
