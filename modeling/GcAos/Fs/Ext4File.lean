import GcAos.Fs.Ext4Calls

/-! What `ext4_set_file_block` does to the block map of its inode: one file block gets a new disk
block, and the others keep theirs. -/

namespace GcAos.Fs
open Lib Ext4 Draft

namespace Geometry

variable {g : Geometry} {device device' : ℕ → Bytes} {v v' : Bytes} {fb : ℕ}

theorem fileBlock_direct (h : fb < ext4NdirBlocks) :
    g.fileBlock device v fb = iBlock v ⟨fb, Nat.lt_trans h (by decide)⟩ := by
  rw [fileBlock, dif_pos h]

theorem fileBlock_single (h : ext4NdirBlocks ≤ fb) (h' : fb - ext4NdirBlocks < g.shape.arity) :
    g.fileBlock device v fb =
      if iBlock v ext4IndBlock = 0 then 0
      else ptrAt (device (iBlock v ext4IndBlock)) (fb - ext4NdirBlocks) := by
  rw [fileBlock, dif_neg (not_lt.mpr h)]
  exact if_pos h'

theorem fileBlock_root_congr (h : iBlock v' (g.fileAddr fb).1 = iBlock v (g.fileAddr fb).1) :
    g.fileBlock device v' fb = g.fileBlock device v fb := by
  unfold fileAddr at h
  unfold fileBlock
  split
  · next hdir => simpa only [hdir, ↓reduceDIte] using h
  · next hdir =>
    simp only [hdir, ↓reduceDIte] at h
    dsimp only
    split
    · next hind =>
      rw [if_pos hind] at h
      rw [h]
    · next hind =>
      rw [if_neg hind] at h
      rw [h]

theorem fileBlock_set_direct {b fb' : ℕ} (hdir : fb < ext4NdirBlocks) (hb : b < 2 ^ 32) :
    g.fileBlock device (ext4Inode.set v 0 (.block ⟨fb, lt_iBlock hdir⟩) b) fb' =
      if fb' = fb then b else g.fileBlock device v fb' := by
  by_cases hsame : fb' = fb
  · subst hsame
    rw [if_pos rfl, fileBlock_direct hdir, iBlock_set_self hb]
  · rw [if_neg hsame]
    have hroot : (g.fileAddr fb').1 ≠ ⟨fb, lt_iBlock hdir⟩ := by
      have hfb : fb < 12 := hdir
      unfold fileAddr
      split
      · exact fun heq => hsame (Fin.val_eq_of_eq heq)
      · dsimp only
        split
        · exact fun heq => hfb.ne' (Fin.val_eq_of_eq heq)
        · exact fun heq => (Nat.lt_succ_of_lt hfb).ne' (Fin.val_eq_of_eq heq)
    exact fileBlock_root_congr (iBlock_set_of_ne fun heq => hroot (InodeField.block.inj heq).symm)

theorem fileBlock_double (h : ext4NdirBlocks ≤ fb) (h' : g.shape.arity ≤ fb - ext4NdirBlocks)
    (hdind : iBlock v' ext4DindBlock = iBlock v ext4DindBlock)
    (hptr : iBlock v ext4DindBlock ≠ 0 →
      device' (iBlock v ext4DindBlock) = device (iBlock v ext4DindBlock))
    (hchild : iBlock v ext4DindBlock ≠ 0 → ∀ i < g.shape.arity,
      word device (iBlock v ext4DindBlock) i ≠ 0 →
      device' (word device (iBlock v ext4DindBlock) i) =
        device (word device (iBlock v ext4DindBlock) i)) :
    g.fileBlock device' v' fb = g.fileBlock device v fb := by
  rw [fileBlock, fileBlock, dif_neg (not_lt.mpr h), dif_neg (not_lt.mpr h)]
  dsimp only
  rw [if_neg (not_lt.mpr h'), if_neg (not_lt.mpr h'), hdind]
  split
  · next hlt =>
    split
    · rfl
    · next hne =>
      rw [hptr hne]
      split
      · rfl
      · next hind =>
        have hsquare : fb - ext4NdirBlocks - g.shape.arity < g.shape.arity * g.shape.arity :=
          hlt.trans_le (Nat.mod_le _ _)
        exact congrArg (ptrAt · _) (hchild hne _ (Nat.div_lt_of_lt_mul hsquare) hind)
  · rfl

end Geometry

namespace Draft.Sound

variable {g : Geometry} {L : Set ℕ} {D : Draft} {group index ino : ℕ}

theorem fresh_of_clear (h : Sound g L D) (hgroup : group < g.groupCount)
    (hindex : index < g.blocksPerGroup)
    (hclear : (D.fs.device (g.blockBitmap group)).bit index = false) :
    ¬g.Reserved (g.blockAt group index) ∧ g.blockAt group index ∉ D.held ∧
      ∀ k p, ¬D.Refs g k p (g.blockAt group index) := by
  have hunused : g.used D.fs.device (g.blockAt group index) ≠ true := by
    rw [used_blockAt hindex, hclear]
    exact Bool.false_ne_true
  refine ⟨fun hres => ?_, fun hheld => ?_, fun k p hr => ?_⟩
  · exact hunused (h.guarded _ hres (Geometry.inRange_blockAt hgroup hindex))
  · exact hunused (h.held _ hheld).used
  · exact hunused (h.data _ _ _ hr).used

theorem not_leaf_of_rooted {v : Bytes} {k : Fin 15} (h : Sound g L D)
    (hv : Geometry.Rooted D.root ino v) (hk : 0 < g.shape.depth (ino, k)) (hne : iBlock v k ≠ 0) :
    ¬g.Reserved (iBlock v k) ∧ iBlock v k ∉ D.held ∧ ¬D.Leaf g ino (iBlock v k) := by
  have href : D.Refs g (ino, k) [] (iBlock v k) := hv.refs hne
  refine ⟨(h.data _ _ _ href).not_reserved, fun hheld => h.fresh _ hheld _ _ href, ?_⟩
  rintro ⟨k', p, hleaf, hlen⟩
  exact h.owned.ne_of_leaf hleaf hlen href hk rfl

theorem fileBlock_eq {device : ℕ → Bytes} {v : Bytes} {c fb : ℕ} (h : Sound g L D)
    (hv : Geometry.Rooted D.root ino v) (hc : c ∈ D.held ∨ D.Leaf g ino c)
    (hdev : ∀ d, ¬g.Reserved d → d ≠ c → device d = D.fs.device d) :
    g.fileBlock device v fb = g.fileBlock D.fs.device v fb := by
  apply Geometry.fileBlock_congr hv
  intro k p d hd hp
  apply hdev d (h.data _ _ _ hd).not_reserved
  rcases hc with hheld | ⟨k', p', hleaf, hlen⟩
  · rintro rfl
    exact h.fresh d hheld _ _ hd
  · exact h.owned.ne_of_leaf hleaf hlen hd hp

end Draft.Sound

/-- The inode `v'` has the single indirect block `c`, and the pointers that were below `v` before. -/
structure HasIndirect (g : Geometry) (D : Draft) (ino : ℕ) (v v' : Bytes) (s s' : Ext4) (c : ℕ) :
    Prop where
  geometry : s'.fs.geometry = g
  later : Later s s'
  ptr : iBlock v' ext4IndBlock = c
  others : ∀ k, k ≠ ext4IndBlock → iBlock v' k = iBlock v k
  ne_zero : c ≠ 0
  not_reserved : ¬g.Reserved c
  not_held : c ∉ D.held
  not_leaf : ¬D.Leaf g ino c
  not_double : ∀ p, ¬D.Refs g (ino, ext4DindBlock) p c
  device : ∀ d, ¬g.Reserved d → d ≠ c → s'.fs.device d = s.fs.device d
  -- without memory the new block is not zeroed
  words : iBlock v ext4IndBlock ≠ 0 ∨ s.kmallocs = [] ∧ s.ios = [] → ∀ i < g.shape.arity,
    ptrAt (s'.fs.device c) i =
      if iBlock v ext4IndBlock = 0 then 0 else ptrAt (s.fs.device (iBlock v ext4IndBlock)) i

section
variable {g : Geometry} {L : Set ℕ} {D : Draft} {s s' : Ext4} {ino : ℕ} {v v' : Bytes} {r : ℤ}
  (hs : Sound g L D) (hD : D.fs = s.fs) (hv : Geometry.Rooted D.root ino v)
include hs hD

theorem allocBlock_fresh {preferred : ℕ} {n : ℤ} (h : s.allocBlock preferred = (n, s'))
    (hn : 0 ≤ n) :
    s'.fs.geometry = g ∧ n.toNat < 2 ^ 32 ∧ ¬g.Reserved n.toNat ∧ n.toNat ∉ D.held ∧
      (∀ k p, ¬D.Refs g k p n.toNat) ∧
      ∀ d, ¬g.Reserved d → s'.fs.device d = s.fs.device d := by
  have hgeo := geometry_eq hs hD
  obtain ⟨-, hcases⟩ := allocBlock_eq hgeo hs.sane h
  obtain ⟨group, index, hgroup, hindex, hclear, hfs, hnat⟩ :=
    hcases.resolve_left fun hneg => not_lt.mpr hn hneg.1
  rw [(hnat.resolve_left (not_lt.mpr hn)).2]
  rw [← hD] at hclear
  obtain ⟨hres, hheld, hrefs⟩ := hs.fresh_of_clear hgroup hindex hclear
  refine ⟨by rw [hfs, Ext4Fs.geometry_takeBit, hgeo],
    (Geometry.inRange_blockAt hgroup hindex).2.trans_le hs.sane.blocks_le, hres, hheld, hrefs, ?_⟩
  intro d hd
  rw [hfs, ← hD]
  refine hs.device_takeBit ?_ ?_
  · rw [← hs.geometry] at hindex
    exact hindex
  · rintro rfl
    exact hd (Geometry.reserved_place hgroup)

theorem makeIndirect_cases {group : ℕ} (h : s.makeIndirect v group = (r, v', s')) (hr : 0 ≤ r) :
    s'.fs.geometry = g ∧ Later s s' ∧
      (iBlock v ext4IndBlock ≠ 0 ∧ v' = v ∧ s'.fs = s.fs ∨
        ∃ c, iBlock v ext4IndBlock = 0 ∧ v' = ext4Inode.set v 0 (.block ext4IndBlock) c ∧
          c < 2 ^ 32 ∧ ¬g.Reserved c ∧ c ∉ D.held ∧ (∀ k p, ¬D.Refs g k p c) ∧
          (∀ d, ¬g.Reserved d → d ≠ c → s'.fs.device d = s.fs.device d) ∧
          (s.kmallocs = [] → s.ios = [] →
            ∀ i < g.shape.arity, ptrAt (s'.fs.device c) i = 0)) := by
  cases makeIndirect_route h with
  | there hsome => exact ⟨geometry_eq hs hD, .refl _, .inl ⟨hsome, rfl, rfl⟩⟩
  | full => exact absurd hr (by decide)
  | unzeroed hnone halloc hpos hlater hsame hfail =>
    have hlater₁ := (allocBlock_eq (geometry_eq hs hD) hs.sane halloc).1
    obtain ⟨hgeo₁, hlt, hres, hheld, hrefs, hdev₁⟩ := allocBlock_fresh hs hD halloc hpos
    refine ⟨by rw [hsame, hgeo₁], hlater₁.trans hlater,
      .inr ⟨_, hnone, rfl, hlt, hres, hheld, hrefs, fun d hd _ => ?_, fun hk hio => ?_⟩⟩
    · rw [hsame, hdev₁ d hd]
    · rcases hfail with hfail | hfail
      · exact absurd (hlater₁.kmallocs_nil hk) hfail
      · exact absurd (hlater₁.ios_nil hio) hfail
  | zeroed hnone halloc hpos hlater hput =>
    have hlater₁ := (allocBlock_eq (geometry_eq hs hD) hs.sane halloc).1
    obtain ⟨hgeo₁, hlt, hres, hheld, hrefs, hdev₁⟩ := allocBlock_fresh hs hD halloc hpos
    refine ⟨by rw [hput, Ext4Fs.geometry_putBlock, hgeo₁], hlater₁.trans hlater,
      .inr ⟨_, hnone, rfl, hlt, hres, hheld, hrefs, fun d hd hne => ?_, fun _ _ i hi => ?_⟩⟩
    · rw [hput, Ext4Fs.device_putBlock_of_ne hne, hdev₁ d hd]
    · rw [hput]
      exact Geometry.ptrAt_zero hgeo₁ hs.sane hi

include hv

theorem makeIndirect_hasIndirect {group : ℕ} (h : s.makeIndirect v group = (r, v', s'))
    (hr : 0 ≤ r) : ∃ c, HasIndirect g D ino v v' s s' c := by
  obtain ⟨hgeo, hlater, ⟨hsome, rfl, hsame⟩ | ⟨c, hnone, rfl, hlt, hres, hheld, hrefs, hdev, hzero⟩⟩ :=
    makeIndirect_cases hs hD h hr
  · obtain ⟨hres, hheld, hleaf⟩ := hs.not_leaf_of_rooted (k := ext4IndBlock) hv Nat.zero_lt_one hsome
    have href : D.Refs g (ino, ext4IndBlock) [] (iBlock v' ext4IndBlock) := hv.refs hsome
    exact ⟨_,
      { geometry := hgeo
        later := hlater
        ptr := rfl
        others := fun _ _ => rfl
        ne_zero := hsome
        not_reserved := hres
        not_held := hheld
        not_leaf := hleaf
        not_double := fun p hp => by
          obtain ⟨hk, -⟩ := hs.owned href hp
          exact absurd (Prod.mk.inj hk).2 (by decide)
        device := fun d _ _ => by rw [hsame]
        words := fun _ i _ => by rw [hsame, if_neg hsome] }⟩
  · exact ⟨c,
      { geometry := hgeo
        later := hlater
        ptr := Geometry.iBlock_set_self hlt
        others := fun k hk =>
          Geometry.iBlock_set_of_ne fun heq => hk (InodeField.block.inj heq).symm
        ne_zero := fun hc => hres (.inl hc)
        not_reserved := hres
        not_held := hheld
        not_leaf := fun ⟨k, p, hr, _⟩ => hrefs _ p hr
        not_double := fun p hp => hrefs _ p hp
        device := hdev
        words := fun hquiet i hi => by
          obtain ⟨hk, hio⟩ := hquiet.resolve_left fun hne => hne hnone
          rw [hzero hk hio i hi, if_pos hnone] }⟩

end

/-- The file block `fb` of the inode has got the disk block `b`. The rest of the map is as before,
up to the pointers of a new indirect block that nobody zeroed. -/
structure Remapped (g : Geometry) (D : Draft) (ino : ℕ) (v v' : Bytes) (s s' : Ext4) (fb b : ℕ) :
    Prop where
  geometry : s'.fs.geometry = g
  later : Later s s'
  reach : fb < ext4NdirBlocks + g.shape.arity
  data : ∀ c, c ∈ D.held ∨ D.Leaf g ino c → s'.fs.device c = s.fs.device c
  -- whatever is written to the metadata later
  map : ∀ device, (∀ c, ¬g.Reserved c → device c = s'.fs.device c) → ∀ fb',
    fb' < ext4NdirBlocks ∨ fb' = fb ∨ iBlock v ext4IndBlock ≠ 0 ∨ s.kmallocs = [] ∧ s.ios = [] →
    g.fileBlock device v' fb' = if fb' = fb then b else g.fileBlock s.fs.device v fb'

section
variable {g : Geometry} {L : Set ℕ} {D : Draft} {s s' : Ext4} {ino fb b : ℕ} {v v' : Bytes} {r : ℤ}
  (hs : Sound g L D) (hD : D.fs = s.fs) (hv : Geometry.Rooted D.root ino v) (hb : b ∈ D.held)
include hs hD hv hb

omit hb in
theorem fileBlock_beside {device : ℕ → Bytes} {c fb' : ℕ}
    (hothers : ∀ k, k ≠ ext4IndBlock → iBlock v' k = iBlock v k)
    (hdouble : ∀ p, ¬D.Refs g (ino, ext4DindBlock) p c)
    (hdev : ∀ d, ¬g.Reserved d → d ≠ c → device d = s.fs.device d)
    (hfb' : fb' < ext4NdirBlocks ∨ g.shape.arity ≤ fb' - ext4NdirBlocks) :
    g.fileBlock device v' fb' = g.fileBlock s.fs.device v fb' := by
  rcases Nat.lt_or_ge fb' ext4NdirBlocks with hdir | hdir
  · rw [Geometry.fileBlock_direct hdir, Geometry.fileBlock_direct hdir]
    exact hothers _ fun heq => hdir.ne (Fin.val_eq_of_eq heq)
  -- the double indirect block and those below it are other blocks
  have hkeep : ∀ p d, D.Refs g (ino, ext4DindBlock) p d → device d = s.fs.device d := by
    intro p d hd
    exact hdev d (hs.data _ _ _ hd).not_reserved fun heq => hdouble p (heq ▸ hd)
  apply Geometry.fileBlock_double hdir (hfb'.resolve_left (not_lt.mpr hdir)) (hothers _ (by decide))
  · exact fun hne => hkeep _ _ (hv.refs hne)
  · intro hne i hi hw
    rw [← hD] at hw ⊢
    have hchild : D.Refs g (ino, ext4DindBlock) [i] _ :=
      .child (hv.refs hne) Nat.zero_lt_two hi hw
    rw [hkeep _ _ hchild, hD]

theorem remapped_direct (hdir : fb < ext4NdirBlocks) :
    Remapped g D ino v (ext4Inode.set v 0 (.block ⟨fb, Nat.lt_trans hdir (by decide)⟩) b) s s fb b where
  geometry := geometry_eq hs hD
  later := .refl _
  reach := hdir.trans_le (Nat.le_add_right _ _)
  data _ _ := rfl
  map := by
    intro device hdev fb' _
    have hlt : b < 2 ^ 32 := (hs.held b hb).inRange.2.trans_le hs.sane.blocks_le
    have hdev' : g.fileBlock device v fb' = g.fileBlock s.fs.device v fb' := by
      apply Geometry.fileBlock_congr hv
      intro k p c hc _
      rw [← hD] at hc
      exact hdev c (hs.data _ _ _ hc).not_reserved
    rw [Geometry.fileBlock_set_direct hdir hlt, hdev']

theorem remapped_single {s₁ : Ext4} {c : ℕ} (hdir : ext4NdirBlocks ≤ fb)
    (hi : fb - ext4NdirBlocks < g.shape.arity) (hind : HasIndirect g D ino v v' s s₁ c)
    (hlater : Later s₁ s') (hfs : s'.fs =
      s₁.fs.putBlock c ((s₁.fs.device c).store (4 * (fb - ext4NdirBlocks)) 4 b)) :
    Remapped g D ino v v' s s' fb b := by
  have hlt : b < 2 ^ 32 := (hs.held b hb).inRange.2.trans_le hs.sane.blocks_le
  have hother : ∀ d, ¬g.Reserved d → d ≠ c → s'.fs.device d = s.fs.device d := by
    intro d hd hne
    rw [hfs, Ext4Fs.device_putBlock_of_ne hne, hind.device d hd hne]
  refine ⟨by rw [hfs, Ext4Fs.geometry_putBlock, hind.geometry], hind.later.trans hlater, ?_, ?_, ?_⟩
  · omega
  · rintro d (hd | hd)
    · exact hother d (hs.held d hd).not_reserved fun heq => hind.not_held (heq ▸ hd)
    · obtain ⟨k, p, hr, -⟩ := id hd
      exact hother d (hs.data _ _ _ hr).not_reserved fun heq => hind.not_leaf (heq ▸ hd)
  · intro device hdev fb' hwhere
    by_cases hin : ext4NdirBlocks ≤ fb' ∧ fb' - ext4NdirBlocks < g.shape.arity
    · obtain ⟨hfb', hi'⟩ := hin
      rw [Geometry.fileBlock_single hfb' hi', Geometry.fileBlock_single hfb' hi', hind.ptr,
        if_neg hind.ne_zero, hdev c hind.not_reserved, hfs]
      by_cases hsame : fb' = fb
      · rw [if_pos hsame, hsame]
        exact Geometry.ptrAt_setPtr hind.geometry hs.sane hi hlt
      · rw [if_neg hsame, Geometry.ptrAt_setPtr_of_ne hind.geometry hs.sane hi (by omega)]
        refine hind.words ?_ _ hi'
        exact (hwhere.resolve_left (not_lt.mpr hfb')).resolve_left hsame
    · rw [if_neg (by omega)]
      refine fileBlock_beside hs hD hv hind.others hind.not_double (fun d hd hne => ?_) (by omega)
      rw [hdev d hd, hother d hd hne]

theorem setFileBlock_remapped (h : s.setFileBlock v fb b ino = (r, v', s')) (hr : 0 ≤ r) :
    Remapped g D ino v v' s s' fb b := by
  have hptrs : s.fs.ptrsPerBlock = g.shape.arity := by
    rw [← geometry_eq hs hD]
    rfl
  cases setFileBlock_route h with
  | direct hdir => exact remapped_direct hs hD hv hb hdir
  | unreached => exact absurd hr (by decide)
  | unmade => exact absurd hr (by decide)
  | unlinked => exact absurd hr (by decide)
  | linked hdir hi hmake hret hlater hput =>
    obtain ⟨c, hind⟩ := makeIndirect_hasIndirect hs hD hv hmake hret
    rw [hind.ptr] at hput
    exact remapped_single hs hD hv hb hdir (hptrs ▸ hi) hind hlater hput

end

end GcAos.Fs
