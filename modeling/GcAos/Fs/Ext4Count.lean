import GcAos.Fs.Ext4Own
import Mathlib.Algebra.BigOperators.Group.Finset.Basic

/-! Free-space accounting of the ext4 driver: the counters of the group descriptors and of the
superblock against the bitmaps. -/

namespace GcAos.Fs
open Lib Ext4 Draft

/-- The clear bits among the bits of a group's bitmap that stand for something. -/
def Ext4Fs.clearBits (fs : Ext4Fs) (k : BitmapKind) (group : ℕ) : ℕ :=
  (fs.device (k.bitmap fs group)).clearCount (k.perGroup fs)

namespace Ext4Fs

variable {fs : Ext4Fs} {g : Geometry} {k k' : BitmapKind} {group group' i : ℕ}

theorem freeCount_lo (h : fs.freeCount k group < 2 ^ 16) :
    fs.freeCount k group = fs.desc group k.freeCountLo ∧
      (64 ≤ fs.descSize → fs.desc group k.freeCountHi = 0) := by
  have hlo : fs.desc group k.freeCountLo < 2 ^ 16 := by
    have := ext4GroupDesc.get_lt (m := fs.groupDescs group) (a := 0) (f := k.freeCountLo)
    cases k <;> exact this
  unfold freeCount desc64 at h ⊢
  split at h
  · next hsize =>
    rw [Nat.lor_comm, ← Nat.shiftLeft_add_eq_or_of_lt hlo, Nat.shiftLeft_eq] at h
    have hhi : fs.desc group k.freeCountHi = 0 := by omega
    rw [if_pos hsize, hhi]
    simp
  · next hsize =>
    rw [if_neg hsize]
    exact ⟨rfl, fun h => absurd h hsize⟩

theorem freeCount_setLo {v n : ℕ} (h : fs.freeCount k group < 2 ^ 16) (hv : v % 2 ^ 16 = n) :
    (fs.setDesc group k.freeCountLo v).freeCount k group = n := by
  obtain ⟨-, hhi⟩ := freeCount_lo h
  have hlo : (fs.setDesc group k.freeCountLo v).desc group k.freeCountLo = n := by
    rw [desc_setDesc_self, ← hv]
    cases k <;> rfl
  have hne : k.freeCountLo ≠ k.freeCountHi := by cases k <;> decide
  have hsize : (fs.setDesc group k.freeCountLo v).descSize = fs.descSize := rfl
  rw [freeCount, desc64, hlo, hsize, desc_setDesc_of_ne hne]
  split
  · next hle =>
    rw [hhi hle]
    simp
  · rfl

theorem freeCount_countDown (hpos : 0 < fs.freeCount k group) (h : fs.freeCount k group < 2 ^ 16) :
    (fs.countDown k group).freeCount k group + 1 = fs.freeCount k group := by
  obtain ⟨hlo, -⟩ := freeCount_lo h
  have hset := freeCount_setLo (v := fs.desc group k.freeCountLo + (2 ^ 16 - 1))
    (n := fs.freeCount k group - 1) h (by omega)
  have heq : (fs.countDown k group).freeCount k group = fs.freeCount k group - 1 := hset
  omega

theorem freeCount_countUp (h : fs.freeCount k group + 1 < 2 ^ 16) :
    (fs.countUp k group).freeCount k group = fs.freeCount k group + 1 := by
  obtain ⟨hlo, -⟩ := freeCount_lo (Nat.lt_of_succ_lt h)
  exact freeCount_setLo (v := fs.desc group k.freeCountLo + 1) (Nat.lt_of_succ_lt h) (by omega)

theorem freeCount_setDesc_of_ne {v : ℕ} (h : k' ≠ k ∨ group' ≠ group) :
    (fs.setDesc group k.freeCountLo v).freeCount k' group' = fs.freeCount k' group' := by
  by_cases hgroup : group' = group
  · have hk := h.resolve_right (not_not.mpr hgroup)
    apply desc64_setDesc_of_ne
    all_goals
      cases k <;> cases k' <;> first | exact absurd rfl hk | decide
  · rw [freeCount, freeCount, desc64, desc64, desc_setDesc_of_group_ne hgroup,
      desc_setDesc_of_group_ne hgroup]
    rfl

theorem super_setSuper_free {v : ℕ} :
    (fs.setSuper k.superFree v).super k'.superFree =
      if k' = k then v % 2 ^ 32 else fs.super k'.superFree := by
  split
  · next h =>
    subst h
    rw [super_setSuper_self]
    cases k' <;> rfl
  · next h =>
    apply super_setSuper_of_ne
    cases k <;> cases k' <;> first | exact absurd rfl h | decide

theorem freeCount_takeBit_of_ne (h : k' ≠ k ∨ group' ≠ group) :
    (fs.takeBit k group i).freeCount k' group' = fs.freeCount k' group' :=
  @freeCount_setDesc_of_ne (fs.putBlock _ _) _ _ _ _ _ h

theorem freeCount_dropBit_of_ne (h : k' ≠ k ∨ group' ≠ group) :
    (fs.dropBit k group i).freeCount k' group' = fs.freeCount k' group' :=
  @freeCount_setDesc_of_ne (fs.putBlock _ _) _ _ _ _ _ h

section
variable (hfs : fs.geometry = g) (hg : g.Sane) (hi : i < k.perGroup fs)
include hfs hg hi

theorem clearBits_takeBit (hclear : (fs.device (g.place (k.area group))).bit i = false) :
    (fs.takeBit k group i).clearBits k group + 1 = fs.clearBits k group := by
  have hfs' : (fs.takeBit k group i).geometry = g := by rw [geometry_takeBit, hfs]
  have hper : k.perGroup (fs.takeBit k group i) = k.perGroup fs := by cases k <;> rfl
  rw [clearBits, clearBits, bitmap_eq_place hfs', bitmap_eq_place hfs, device_takeBit hfs hg hi,
    Function.update_self, hper]
  exact Bytes.clearCount_setBit hi hclear

theorem clearBits_dropBit (hset : (fs.device (g.place (k.area group))).bit i = true) :
    (fs.dropBit k group i).clearBits k group = fs.clearBits k group + 1 := by
  have hfs' : (fs.dropBit k group i).geometry = g := by rw [geometry_dropBit, hfs]
  have hper : k.perGroup (fs.dropBit k group i) = k.perGroup fs := by cases k <;> rfl
  rw [clearBits, clearBits, bitmap_eq_place hfs', bitmap_eq_place hfs, device_dropBit hfs hg hi,
    Function.update_self, hper]
  exact Bytes.clearCount_clearBit hi hset

end

theorem clearBits_congr {fs' : Ext4Fs} (hfs : fs.geometry = g) (hfs' : fs'.geometry = g)
    (h : fs'.device (g.place (k.area group)) = fs.device (g.place (k.area group))) :
    fs'.clearBits k group = fs.clearBits k group := by
  have hper : k.perGroup fs' = k.perGroup fs := by
    cases k
    · exact congrArg Geometry.blocksPerGroup (hfs'.trans hfs.symm)
    · exact congrArg Geometry.inodesPerGroup (hfs'.trans hfs.symm)
  rw [clearBits, clearBits, bitmap_eq_place hfs, bitmap_eq_place hfs', h, hper]

end Ext4Fs

theorem BitmapKind.area_injective {k k' : BitmapKind} {group group' : ℕ}
    (h : k.area group = k'.area group') : k = k' ∧ group = group' := by
  cases k <;> cases k' <;> first | exact Area.noConfusion h | skip
  · exact ⟨rfl, Area.blockBitmap.inj h⟩
  · exact ⟨rfl, Area.inodeBitmap.inj h⟩

def Draft.heldIn (g : Geometry) (D : Draft) : BitmapKind → ℕ → ℕ
  | .block, group => (D.held.filter fun b => g.groupOf b = group).card
  | .inode, group => (D.inodes.filter fun x => x.1 = group).card

structure Draft.Counted (g : Geometry) (D : Draft) : Prop where
  count : ∀ k group, group < g.groupCount → D.fs.freeCount k group = D.fs.clearBits k group
  total : ∀ k, D.fs.super k.superFree =
    (∑ group ∈ Finset.range g.groupCount, D.fs.freeCount k group) % 2 ^ 32
  room : ∀ k group, group < g.groupCount → D.fs.clearBits k group + D.heldIn g k group < 2 ^ 16

theorem sum_succ_of_eq {n m : ℕ} {f f' : ℕ → ℕ} (hm : m < n) (hself : f' m + 1 = f m)
    (hne : ∀ j, j ≠ m → f' j = f j) :
    ∑ j ∈ Finset.range n, f' j + 1 = ∑ j ∈ Finset.range n, f j := by
  have hmem := Finset.mem_range.mpr hm
  have hrest : ∑ j ∈ (Finset.range n).erase m, f' j = ∑ j ∈ (Finset.range n).erase m, f j :=
    Finset.sum_congr rfl fun j hj => hne j (Finset.ne_of_mem_erase hj)
  rw [← Finset.add_sum_erase _ f' hmem, ← Finset.add_sum_erase _ f hmem, hrest, ← hself]
  ring

namespace Draft.Counted

variable {g : Geometry} {L : Set ℕ} {D D' : Draft} {k : BitmapKind} {group i ino : ℕ}

theorem freeCount_lt (h : Counted g D) (hgroup : group < g.groupCount) :
    D.fs.freeCount k group < 2 ^ 16 := by
  rw [h.count k group hgroup]
  exact Nat.lt_of_le_of_lt (Nat.le_add_right _ _) (h.room k group hgroup)

theorem clearBits_of_ne {fs fs' : Ext4Fs} {blk : Bytes} {k' : BitmapKind} {group' : ℕ}
    (hg : g.Sane) (hfs : fs.geometry = g) (hfs' : fs'.geometry = g)
    (hdev : fs'.device = Function.update fs.device (g.place (k.area group)) blk)
    (hgroup : group < g.groupCount) (hgroup' : group' < g.groupCount)
    (hne : ¬(k' = k ∧ group' = group)) : fs'.clearBits k' group' = fs.clearBits k' group' := by
  apply Ext4Fs.clearBits_congr hfs hfs'
  rw [hdev]
  apply Function.update_of_ne
  intro hplace
  exact hne (BitmapKind.area_injective
    (hg.apart _ _ (Ext4Fs.has_bitmap hgroup') (Ext4Fs.has_bitmap hgroup) hplace))

theorem move (h : Counted g D)
    (hbits : ∀ k' group', group' < g.groupCount → ¬(k' = k ∧ group' = group) →
      D'.fs.clearBits k' group' = D.fs.clearBits k' group')
    (hfree : ∀ k' group', k' ≠ k ∨ group' ≠ group →
      D'.fs.freeCount k' group' = D.fs.freeCount k' group')
    (hheld : ∀ k' group', ¬(k' = k ∧ group' = group) → D'.heldIn g k' group' = D.heldIn g k' group')
    (hsuper : ∀ k', k' ≠ k → D'.fs.super k'.superFree = D.fs.super k'.superFree)
    (hcount : D'.fs.freeCount k group = D'.fs.clearBits k group)
    (htotal : D'.fs.super k.superFree =
      (∑ group ∈ Finset.range g.groupCount, D'.fs.freeCount k group) % 2 ^ 32)
    (hroom : D'.fs.clearBits k group + D'.heldIn g k group < 2 ^ 16) : Counted g D' := by
  refine ⟨fun k' group' hgroup' => ?_, fun k' => ?_, fun k' group' hgroup' => ?_⟩
  · by_cases hsame : k' = k ∧ group' = group
    · obtain ⟨rfl, rfl⟩ := hsame
      exact hcount
    · rw [hfree k' group' (not_and_or.mp hsame), hbits k' group' hgroup' hsame]
      exact h.count k' group' hgroup'
  · by_cases hk : k' = k
    · subst hk
      exact htotal
    · rw [hsuper k' hk, h.total k']
      congr 1
      exact Finset.sum_congr rfl fun j _ => (hfree k' j (.inl hk)).symm
  · by_cases hsame : k' = k ∧ group' = group
    · obtain ⟨rfl, rfl⟩ := hsame
      exact hroom
    · rw [hbits k' group' hgroup' hsame, hheld k' group' hsame]
      exact h.room k' group' hgroup'

theorem take (h : Counted g D) (hg : g.Sane) (hgeo : D.fs.geometry = g)
    (hfs : D'.fs = D.fs.takeBit k group i) (hgroup : group < g.groupCount)
    (hi : i < k.perGroup D.fs) (hclear : (D.fs.device (g.place (k.area group))).bit i = false)
    (hheld : D'.heldIn g k group = D.heldIn g k group + 1)
    (hothers : ∀ k' group', ¬(k' = k ∧ group' = group) →
      D'.heldIn g k' group' = D.heldIn g k' group') : Counted g D' := by
  have hgeo' : D'.fs.geometry = g := by rw [hfs, Ext4Fs.geometry_takeBit, hgeo]
  have hbits : D'.fs.clearBits k group + 1 = D.fs.clearBits k group := by
    rw [hfs]
    exact Ext4Fs.clearBits_takeBit hgeo hg hi hclear
  have hcount := h.count k group hgroup
  have hroom := h.room k group hgroup
  have hpos : 0 < D.fs.freeCount k group := by omega
  have hfree : D'.fs.freeCount k group + 1 = D.fs.freeCount k group := by
    rw [hfs]
    exact @Ext4Fs.freeCount_countDown (D.fs.putBlock _ _) k group hpos (h.freeCount_lt hgroup)
  have hfree_ne (k' : BitmapKind) (group' : ℕ) (hne : k' ≠ k ∨ group' ≠ group) :
      D'.fs.freeCount k' group' = D.fs.freeCount k' group' := by
    rw [hfs]
    exact Ext4Fs.freeCount_takeBit_of_ne hne
  have hsuper (k' : BitmapKind) : D'.fs.super k'.superFree =
      if k' = k then (D.fs.super k.superFree + (2 ^ 32 - 1)) % 2 ^ 32
      else D.fs.super k'.superFree := by
    rw [hfs]
    exact Ext4Fs.super_setSuper_free
  have hdev := congrArg Ext4Fs.device hfs
  rw [Ext4Fs.device_takeBit hgeo hg hi] at hdev
  refine h.move (fun k' group' hgroup' hne => clearBits_of_ne hg hgeo hgeo' hdev hgroup hgroup' hne)
    hfree_ne hothers (fun k' hk => (hsuper k').trans (if_neg hk)) (by omega) ?_ (by omega)
  have hsum := sum_succ_of_eq hgroup hfree fun j hj => hfree_ne k j (.inr hj)
  rw [hsuper, if_pos rfl, h.total k, ← hsum]
  omega

theorem drop (h : Counted g D) (hg : g.Sane) (hgeo : D.fs.geometry = g)
    (hfs : D'.fs = D.fs.dropBit k group i) (hgroup : group < g.groupCount)
    (hi : i < k.perGroup D.fs) (hset : (D.fs.device (g.place (k.area group))).bit i = true)
    (hheld : D.heldIn g k group = D'.heldIn g k group + 1)
    (hothers : ∀ k' group', ¬(k' = k ∧ group' = group) →
      D'.heldIn g k' group' = D.heldIn g k' group') : Counted g D' := by
  have hgeo' : D'.fs.geometry = g := by rw [hfs, Ext4Fs.geometry_dropBit, hgeo]
  have hbits : D'.fs.clearBits k group = D.fs.clearBits k group + 1 := by
    rw [hfs]
    exact Ext4Fs.clearBits_dropBit hgeo hg hi hset
  have hcount := h.count k group hgroup
  have hroom := h.room k group hgroup
  have hlt : D.fs.freeCount k group + 1 < 2 ^ 16 := by omega
  have hfree : D.fs.freeCount k group + 1 = D'.fs.freeCount k group := by
    rw [hfs]
    exact (@Ext4Fs.freeCount_countUp (D.fs.putBlock _ _) k group hlt).symm
  have hfree_ne (k' : BitmapKind) (group' : ℕ) (hne : k' ≠ k ∨ group' ≠ group) :
      D'.fs.freeCount k' group' = D.fs.freeCount k' group' := by
    rw [hfs]
    exact Ext4Fs.freeCount_dropBit_of_ne hne
  have hsuper (k' : BitmapKind) : D'.fs.super k'.superFree =
      if k' = k then (D.fs.super k.superFree + 1) % 2 ^ 32 else D.fs.super k'.superFree := by
    rw [hfs]
    exact Ext4Fs.super_setSuper_free
  have hdev := congrArg Ext4Fs.device hfs
  rw [Ext4Fs.device_dropBit hgeo hg hi] at hdev
  refine h.move (fun k' group' hgroup' hne => clearBits_of_ne hg hgeo hgeo' hdev hgroup hgroup' hne)
    hfree_ne hothers (fun k' hk => (hsuper k').trans (if_neg hk)) (by omega) ?_ (by omega)
  have hsum := sum_succ_of_eq hgroup hfree fun j hj => (hfree_ne k j (.inr hj)).symm
  rw [hsuper, if_pos rfl, h.total k, ← hsum]
  omega

theorem of_bitmaps (h : Counted g D) (hgeo : D.fs.geometry = g) (hgeo' : D'.fs.geometry = g)
    (hdesc : D'.fs.groupDescs = D.fs.groupDescs) (hsb : D'.fs.sb = D.fs.sb)
    (hdev : ∀ k group, group < g.groupCount →
      D'.fs.device (g.place (BitmapKind.area k group)) = D.fs.device (g.place (k.area group)))
    (hheld : ∀ k group, D'.heldIn g k group ≤ D.heldIn g k group) : Counted g D' := by
  have hfree (k : BitmapKind) (group : ℕ) : D'.fs.freeCount k group = D.fs.freeCount k group := by
    have hsize : D'.fs.descSize = D.fs.descSize :=
      congrArg Geometry.descSize (hgeo'.trans hgeo.symm)
    simp only [Ext4Fs.freeCount, Ext4Fs.desc64, Ext4Fs.desc, hdesc, hsize]
  have hbits (k : BitmapKind) (group : ℕ) (hgroup : group < g.groupCount) :
      D'.fs.clearBits k group = D.fs.clearBits k group :=
    Ext4Fs.clearBits_congr hgeo hgeo' (hdev k group hgroup)
  refine ⟨fun k group hgroup => ?_, fun k => ?_, fun k group hgroup => ?_⟩
  · rw [hfree, hbits k group hgroup]
    exact h.count k group hgroup
  · simp only [Ext4Fs.super, hsb, hfree]
    exact h.total k
  · rw [hbits k group hgroup]
    exact Nat.lt_of_le_of_lt (Nat.add_le_add_left (hheld k group) _) (h.room k group hgroup)

theorem heldIn_erase_le {b : ℕ} (k : BitmapKind) (group : ℕ) :
    heldIn g { D with held := D.held.erase b } k group ≤ heldIn g D k group := by
  cases k with
  | block => exact Finset.card_le_card (Finset.filter_subset_filter _ (Finset.erase_subset _ _))
  | inode => exact le_rfl

theorem putBlock {b : ℕ} {buf : Bytes} {held' : Finset ℕ} (h : Counted g D)
    (hgeo : D.fs.geometry = g) (hb : ¬g.Reserved b)
    (hheld : ∀ k group, heldIn g { D with held := held' } k group ≤ heldIn g D k group) :
    Counted g { D with fs := D.fs.putBlock b buf, held := held' } :=
  h.of_bitmaps hgeo hgeo rfl rfl
    (fun _ _ hgroup => Draft.Sound.device_place hb (Ext4Fs.has_bitmap hgroup)) hheld

theorem card_filter_insert {α β : Type*} [DecidableEq α] [DecidableEq β] {S : Finset α} {f : α → β}
    {x : α} (hx : x ∉ S) (y : β) :
    ((insert x S).filter fun a => f a = y).card =
      if f x = y then (S.filter fun a => f a = y).card + 1 else (S.filter fun a => f a = y).card := by
  rw [Finset.filter_insert]
  split
  · rw [Finset.card_insert_of_notMem fun hmem => hx (Finset.mem_filter.mp hmem).1]
  · rfl

theorem work (h : Counted g D) (hs : Sound g L D) (hwork : Work g ino D D') : Counted g D' := by
  have hg := hs.sane
  have hgeo := hs.geometry
  have hblocks : BitmapKind.block.perGroup D.fs = g.blocksPerGroup :=
    congrArg Geometry.blocksPerGroup hgeo
  have hinodes : BitmapKind.inode.perGroup D.fs = g.inodesPerGroup :=
    congrArg Geometry.inodesPerGroup hgeo
  cases hwork with
  | @take group index hgroup hindex hclear =>
    have hnew : g.blockAt group index ∉ D.held := by
      intro hmem
      have hused := (hs.held _ hmem).used
      rw [Draft.Sound.used_blockAt hindex, hclear] at hused
      cases hused
    have hcard (group' : ℕ) := card_filter_insert (f := g.groupOf) hnew group'
    rw [Geometry.groupOf_blockAt hindex] at hcard
    refine h.take (k := .block) hg hgeo rfl hgroup (hblocks ▸ hindex) hclear ?_ ?_
    · exact (hcard group).trans (if_pos rfl)
    · intro k' group' hne
      cases k' with
      | block => exact (hcard group').trans (if_neg fun heq => hne ⟨rfl, heq.symm⟩)
      | inode => rfl
  | @drop b hb =>
    have hdata := hs.held b hb
    have hcard (group' : ℕ) :=
      card_filter_insert (f := g.groupOf) (Finset.notMem_erase b D.held) group'
    rw [Finset.insert_erase hb] at hcard
    refine h.drop (k := .block) hg hgeo rfl (hg.groupOf_lt hdata.inRange) (hblocks ▸ hg.indexOf_lt)
      hdata.used ?_ ?_
    · exact (hcard _).trans (if_pos rfl)
    · intro k' group' hne
      cases k' with
      | block => exact ((hcard group').trans (if_neg fun heq => hne ⟨rfl, heq.symm⟩)).symm
      | inode => rfl
  | @takeInode group index hgroup hindex hclear =>
    have hnew : (group, index) ∉ D.inodes := by
      intro hmem
      have hset := (hs.inodes _ hmem).2.2
      rw [hclear] at hset
      cases hset
    have hcard (group' : ℕ) := card_filter_insert (f := Prod.fst) hnew group'
    refine h.take (k := .inode) hg hgeo rfl hgroup (hinodes ▸ hindex) hclear ?_ ?_
    · exact (hcard group).trans (if_pos rfl)
    · intro k' group' hne
      cases k' with
      | block => rfl
      | inode => exact (hcard group').trans (if_neg fun heq => hne ⟨rfl, heq.symm⟩)
  | @dropInode x hx =>
    obtain ⟨hgroup, hindex, hset⟩ := hs.inodes x hx
    have hcard (group' : ℕ) :=
      card_filter_insert (f := Prod.fst) (Finset.notMem_erase x D.inodes) group'
    rw [Finset.insert_erase hx] at hcard
    refine h.drop (k := .inode) hg hgeo rfl hgroup (hinodes ▸ hindex) hset ?_ ?_
    · exact (hcard _).trans (if_pos rfl)
    · intro k' group' hne
      cases k' with
      | block => rfl
      | inode => exact ((hcard group').trans (if_neg fun heq => hne ⟨rfl, heq.symm⟩)).symm
  | write buf hb =>
    refine h.putBlock hgeo ?_ fun _ _ => le_rfl
    rcases hb with hb | ⟨k, p, hr, -⟩
    · exact (hs.held _ hb).not_reserved
    · exact (hs.data _ _ _ hr).not_reserved
  | link hc hc₀ hi hb =>
    exact h.putBlock hgeo (hs.data _ _ _ (.root hc hc₀)).not_reserved heldIn_erase_le
  | hang hb hzero =>
    exact h.of_bitmaps hgeo hgeo rfl rfl (fun _ _ _ => rfl) heldIn_erase_le

theorem putInode {v : Bytes} (h : Counted g D) (hg : g.Sane) (hgeo : D.fs.geometry = g)
    (hino : g.ValidIno ino) : Counted g { D with fs := D.fs.putInode ino v } := by
  refine h.of_bitmaps hgeo hgeo rfl rfl (fun k group hgroup => ?_) fun _ _ => le_rfl
  have hdev : (D.fs.putInode ino v).device = _ := Ext4Fs.device_putInode hgeo hg
  dsimp only
  rw [hdev]
  apply Function.update_of_ne
  intro hplace
  have harea := hg.apart _ _ (Ext4Fs.has_bitmap hgroup) (hg.has_inodeArea hino) hplace
  cases k <;> exact Area.noConfusion harea

theorem edits {I : Set ℕ} (h : Counted g D) (hs : Sound g L D) (hedits : DraftEdits g I D D') :
    Counted g D' := by
  induction hedits with
  | refl => exact h
  | tail hedits hlast ih =>
    obtain ⟨ino, _, hedit⟩ := hlast
    have hs' := hs.edits hedits
    cases hedit with
    | work hwork => exact ih.work hs' hwork
    | putInode hino _ => exact ih.putInode hs'.sane hs'.geometry hino

theorem close (h : Counted g D) (hgeo : D.fs.geometry = g) : Counted g (closed g L D.fs) := by
  refine h.of_bitmaps hgeo hgeo rfl rfl (fun _ _ _ => rfl) fun k group => ?_
  cases k <;> exact Nat.zero_le _

end Draft.Counted

end GcAos.Fs
