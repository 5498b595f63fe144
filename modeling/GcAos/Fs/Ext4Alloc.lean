import GcAos.Fs.Ext4Count

/-! What the bitmap allocators of the ext4 driver find: the first clear bit of the first group with
one, in the order in which the groups are tried. -/

namespace GcAos.Fs
open Lib

namespace Ext4Fs

structure HasBitmaps (fs : Ext4Fs) : Prop where
  apart : ∀ k k' group group', group < fs.groupCount → group' < fs.groupCount →
    BitmapKind.bitmap k fs group = BitmapKind.bitmap k' fs group' → k = k' ∧ group = group'
  fits : ∀ k, BitmapKind.perGroup k fs ≤ 8 * fs.blockSize

/-- Bit `index` of a group's bitmap stands for something, and is clear. -/
structure FreeBit (fs : Ext4Fs) (k : BitmapKind) (group index : ℕ) : Prop where
  group_lt : group < fs.groupCount
  index_lt : index < k.perGroup fs
  clear : (fs.device (k.bitmap fs group)).bit index = false

/-- The group that the search from `preferred` on tries as number `n`, in 32 bits. -/
def turnGroup (fs : Ext4Fs) (preferred n : ℕ) : ℕ := (preferred + n) % 2 ^ 32 % fs.groupCount

structure Seen (fs : Ext4Fs) (k : BitmapKind) (group index : ℕ) : Prop extends
    FreeBit fs k group index where
  counted : fs.freeCount k group ≠ 0
  scanned : index < 8 * k.scanBytes fs

/-- Bit `index` of `group` is the first one that the search sees. -/
structure Finds (fs : Ext4Fs) (k : BitmapKind) (preferred group index : ℕ) : Prop where
  seen : fs.Seen k group index
  lowest : ∀ i < index, (fs.device (k.bitmap fs group)).bit i = true
  turn : ∃ n < fs.groupCount, fs.turnGroup preferred n = group ∧
    ∀ m < n, ∀ i, ¬fs.Seen k (fs.turnGroup preferred m) i

structure TookBit (fs fs' : Ext4Fs) (k : BitmapKind) (group index : ℕ) : Prop extends
    FreeBit fs k group index where
  set : (fs'.device (k.bitmap fs group)).bit index = true
  others : ∀ k' group' i, group' < fs.groupCount → ¬(k' = k ∧ group' = group ∧ i = index) →
    (fs'.device (BitmapKind.bitmap k' fs group')).bit i =
      (fs.device (BitmapKind.bitmap k' fs group')).bit i

variable {fs fs' : Ext4Fs} {k : BitmapKind} {preferred group group' index index' i : ℕ}

theorem Finds.unique (h : fs.Finds k preferred group index)
    (h' : fs.Finds k preferred group' index') : group = group' ∧ index = index' := by
  obtain ⟨n, -, hn, hnone⟩ := h.turn
  obtain ⟨n', -, hn', hnone'⟩ := h'.turn
  have hnn : n = n' := by
    rcases Nat.lt_trichotomy n n' with hlt | heq | hlt
    · exact absurd h.seen (hn ▸ hnone' n hlt index)
    · exact heq
    · exact absurd h'.seen (hn' ▸ hnone n' hlt index')
  obtain rfl : group = group' := by rw [← hn, hnn, hn']
  refine ⟨rfl, ?_⟩
  rcases Nat.lt_trichotomy index index' with hlt | heq | hlt
  · have := h'.lowest index hlt
    rw [h.seen.clear] at this
    cases this
  · exact heq
  · have := h.lowest index' hlt
    rw [h'.seen.clear] at this
    cases this

theorem bitmap_congr (h : fs'.geometry = fs.geometry) : k.bitmap fs' group = k.bitmap fs group := by
  rw [bitmap_eq_place h, bitmap_eq_place rfl]

/-! ## Taking a bit and dropping it -/

section
variable (hi : i < 8 * fs.blockSize)
include hi

theorem device_takeBit_eq : (fs.takeBit k group i).device =
    Function.update fs.device (k.bitmap fs group) ((fs.device (k.bitmap fs group)).setBit i) := by
  apply device_putBlock
  intro j hj
  exact Bytes.setBit_apply_of_ne (by omega)

theorem device_dropBit_eq : (fs.dropBit k group i).device =
    Function.update fs.device (k.bitmap fs group) ((fs.device (k.bitmap fs group)).clearBit i) := by
  apply device_putBlock
  intro j hj
  exact Bytes.clearBit_apply_of_ne (by omega)

theorem dropBit_takeBit (hclear : (fs.device (k.bitmap fs group)).bit i = false) :
    (fs.takeBit k group i).dropBit k group i = fs := by
  have hbitmap : k.bitmap (fs.takeBit k group i) group = k.bitmap fs group :=
    bitmap_congr geometry_takeBit
  have hdrop : ((fs.takeBit k group i).dropBit k group i).device = _ := device_dropBit_eq hi
  have hdevice : ((fs.takeBit k group i).dropBit k group i).device = fs.device := by
    rw [hdrop, hbitmap, device_takeBit_eq hi,
      Function.update_self, Function.update_idem, Bytes.clearBit_setBit hclear,
      Function.update_eq_self]
  have hdescs : ((fs.takeBit k group i).dropBit k group i).groupDescs = fs.groupDescs := by
    have hlt := ext4GroupDesc.get_lt (m := fs.groupDescs group) (a := 0) (f := k.freeCountLo)
    have hlen : 256 ^ ext4GroupDesc.len k.freeCountLo = 2 ^ 16 := by cases k <;> rfl
    have hdown : (fs.takeBit k group i).desc group k.freeCountLo =
        (fs.desc group k.freeCountLo + (2 ^ 16 - 1)) % 2 ^ 16 := by
      refine desc_setDesc_self.trans ?_
      rw [hlen]
      rfl
    have hdesc : fs.desc group k.freeCountLo < 2 ^ 16 := hlen ▸ hlt
    have htake : (fs.takeBit k group i).groupDescs = Function.update fs.groupDescs group
        (ext4GroupDesc.set (fs.groupDescs group) 0 k.freeCountLo
          (fs.desc group k.freeCountLo + (2 ^ 16 - 1))) := rfl
    have hdrop : ((fs.takeBit k group i).dropBit k group i).groupDescs =
        Function.update (fs.takeBit k group i).groupDescs group
          (ext4GroupDesc.set ((fs.takeBit k group i).groupDescs group) 0 k.freeCountLo
            ((fs.takeBit k group i).desc group k.freeCountLo + 1)) := rfl
    rw [hdrop, hdown, htake, Function.update_self, Function.update_idem, Layout.set_back,
      Function.update_eq_self]
    rw [hlen]
    show _ = fs.desc group k.freeCountLo
    omega
  have hsb : ((fs.takeBit k group i).dropBit k group i).sb = fs.sb := by
    have hlt := ext4Superblock.get_lt (m := fs.sb) (a := 0) (f := k.superFree)
    have hlen : 256 ^ ext4Superblock.len k.superFree = 2 ^ 32 := by cases k <;> rfl
    have hdown : (fs.takeBit k group i).super k.superFree =
        (fs.super k.superFree + (2 ^ 32 - 1)) % 2 ^ 32 := by
      refine super_setSuper_self.trans ?_
      rw [hlen]
      rfl
    have hsuper : fs.super k.superFree < 2 ^ 32 := hlen ▸ hlt
    have htake : (fs.takeBit k group i).sb =
        ext4Superblock.set fs.sb 0 k.superFree (fs.super k.superFree + (2 ^ 32 - 1)) := rfl
    have hdrop : ((fs.takeBit k group i).dropBit k group i).sb =
        ext4Superblock.set (fs.takeBit k group i).sb 0 k.superFree
          ((fs.takeBit k group i).super k.superFree + 1) := rfl
    rw [hdrop, hdown, htake, Layout.set_back]
    rw [hlen]
    show _ = fs.super k.superFree
    omega
  calc (fs.takeBit k group i).dropBit k group i
      = { fs with
          device := ((fs.takeBit k group i).dropBit k group i).device
          groupDescs := ((fs.takeBit k group i).dropBit k group i).groupDescs
          sb := ((fs.takeBit k group i).dropBit k group i).sb } := rfl
    _ = fs := by rw [hdevice, hdescs, hsb]

end

theorem HasBitmaps.tookBit (h : fs.HasBitmaps) (hfree : fs.FreeBit k group index) :
    fs.TookBit (fs.takeBit k group index) k group index := by
  have hdevice : (fs.takeBit k group index).device = _ :=
    device_takeBit_eq (hfree.index_lt.trans_le (h.fits k))
  refine ⟨hfree, ?_, fun k' group' i hgroup' hne => ?_⟩
  · rw [hdevice, Function.update_self]
    simp
  · rw [hdevice]
    by_cases hblock : BitmapKind.bitmap k' fs group' = k.bitmap fs group
    · obtain ⟨rfl, rfl⟩ := h.apart _ _ _ _ hgroup' hfree.group_lt hblock
      have hi : i ≠ index := fun heq => hne ⟨rfl, rfl, heq⟩
      rw [Function.update_self]
      simp [hi]
    · rw [Function.update_of_ne hblock]

theorem TookBit.unique (h : fs.TookBit fs' k group index) (h' : fs.TookBit fs' k group' index') :
    group = group' ∧ index = index' := by
  by_contra hne
  have hsame := h'.others k group index h.group_lt fun heq => hne heq.2
  rw [h.set, h.clear] at hsame
  cases hsame

theorem TookBit.ne (h : fs.TookBit fs' k group index) : fs' ≠ fs := by
  rintro rfl
  have hset := h.set
  rw [h.clear] at hset
  cases hset

end Ext4Fs

/-! ## The search -/

namespace Ext4

variable {s s' : Ext4} {k : BitmapKind} {preferred group index : ℕ} {r : Option (ℕ × ℕ)}

theorem readBlock_quiet {b : ℕ} (hios : s.ios = []) : s.readBlock b = (some (s.fs.device b), s) := by
  unfold readBlock io
  rw [hios]
  dsimp only [List.headD_nil, List.tail_nil]
  rw [if_pos rfl, ← hios]

theorem writeBlockRaw_quiet {b : ℕ} {buf : Bytes} (hios : s.ios = []) :
    s.writeBlockRaw b buf = (0, { s with fs := s.fs.putBlock b buf }) := by
  unfold writeBlockRaw io
  rw [hios]
  dsimp only [List.headD_nil, List.tail_nil]
  rw [if_pos rfl]

theorem allocScan_finds {gs : List ℕ} (hios : s.ios = []) (hgs : ∀ n ∈ gs, n < s.fs.groupCount)
    (h : allocScan k preferred gs s = (r, s')) :
    (r = none ∧ s' = s ∧ ∀ n ∈ gs, ∀ i, ¬s.fs.Seen k (s.fs.turnGroup preferred n) i) ∨
    ∃ group index, r = some (group, index) ∧
      s' = { s with fs := s.fs.takeBit k group index } ∧ s.fs.Seen k group index ∧
      (∀ i < index, (s.fs.device (k.bitmap s.fs group)).bit i = true) ∧
      ∃ before n after, gs = before ++ n :: after ∧ s.fs.turnGroup preferred n = group ∧
        ∀ m ∈ before, ∀ i, ¬s.fs.Seen k (s.fs.turnGroup preferred m) i := by
  induction gs with
  | nil =>
    obtain ⟨rfl, rfl⟩ := Prod.mk.inj h
    exact .inl ⟨rfl, rfl, fun n hn => absurd hn List.not_mem_nil⟩
  | cons n gs ih =>
    have hpos : 0 < s.fs.groupCount := Nat.zero_lt_of_lt (hgs n (List.mem_cons_self ..))
    have hlt : s.fs.turnGroup preferred n < s.fs.groupCount := Nat.mod_lt _ hpos
    -- nothing is seen in the group of this turn, and the next turns decide
    have hnext (hskip : ∀ i, ¬s.fs.Seen k (s.fs.turnGroup preferred n) i)
        (h : allocScan k preferred gs s = (r, s')) :
        (r = none ∧ s' = s ∧ ∀ m ∈ n :: gs, ∀ i, ¬s.fs.Seen k (s.fs.turnGroup preferred m) i) ∨
        ∃ group index, r = some (group, index) ∧
          s' = { s with fs := s.fs.takeBit k group index } ∧ s.fs.Seen k group index ∧
          (∀ i < index, (s.fs.device (k.bitmap s.fs group)).bit i = true) ∧
          ∃ before m after, n :: gs = before ++ m :: after ∧ s.fs.turnGroup preferred m = group ∧
            ∀ m ∈ before, ∀ i, ¬s.fs.Seen k (s.fs.turnGroup preferred m) i := by
      rcases ih (fun m hm => hgs m (List.mem_cons_of_mem _ hm)) h with
        ⟨hr, hs, hnone⟩ | ⟨group, index, hr, hs, hseen, hlow, before, m, after, rfl, hm, hnone⟩
      · exact .inl ⟨hr, hs, List.forall_mem_cons.mpr ⟨hskip, hnone⟩⟩
      · exact .inr ⟨group, index, hr, hs, hseen, hlow, n :: before, m, after, rfl, hm,
          List.forall_mem_cons.mpr ⟨hskip, hnone⟩⟩
    unfold allocScan at h
    dsimp only at h
    rw [show (preferred + n) % 2 ^ 32 % s.fs.groupCount = s.fs.turnGroup preferred n from rfl] at h
    split at h
    · next hzero => exact hnext (fun i hseen => hseen.counted hzero) h
    · next hcount =>
      rw [readBlock_quiet hios] at h
      dsimp only at h
      split at h
      · next hfull =>
        refine hnext (fun i hseen => ?_) h
        have hset := Bytes.firstClear_eq_none hfull hseen.index_lt hseen.scanned
        rw [hseen.clear] at hset
        cases hset
      · next index hindex =>
        obtain ⟨hper, hscan, hclear⟩ := Bytes.firstClear_eq_some hindex
        rw [writeBlockRaw_quiet hios] at h
        dsimp only at h
        rw [if_neg (lt_irrefl 0)] at h
        obtain ⟨rfl, rfl⟩ := Prod.mk.inj h
        exact .inr ⟨_, index, rfl, rfl, ⟨⟨hlt, hper, hclear⟩, hcount, hscan⟩,
          fun i hi => Bytes.firstClear_first hindex hi, [], n, gs, rfl, rfl, by simp⟩

theorem allocBit_finds (hios : s.ios = []) (h : s.allocBit k preferred = (r, s')) :
    (r = none ∧ s' = s.kmalloc.2 ∧ (s.kmalloc.1 = true →
      ∀ n < s.fs.groupCount, ∀ i, ¬s.fs.Seen k (s.fs.turnGroup preferred n) i)) ∨
    s.kmalloc.1 = true ∧ ∃ group index, r = some (group, index) ∧
      s' = { s.kmalloc.2 with fs := s.fs.takeBit k group index } ∧
      s.fs.Finds k preferred group index := by
  unfold allocBit at h
  cases hok : s.kmalloc.1 with
  | false =>
    rw [show s.kmalloc = (false, s.kmalloc.2) from Prod.ext hok rfl] at h
    obtain ⟨rfl, rfl⟩ := Prod.mk.inj h
    exact .inl ⟨rfl, rfl, fun htrue => by cases htrue⟩
  | true =>
    rw [show s.kmalloc = (true, s.kmalloc.2) from Prod.ext hok rfl] at h
    dsimp only at h
    rw [if_pos rfl] at h
    rcases allocScan_finds (s := s.kmalloc.2) hios (fun n hn => List.mem_range.mp hn) h with
      ⟨rfl, rfl, hnone⟩ | ⟨group, index, rfl, rfl, hseen, hlow, before, n, after, hsplit, hn, hnone⟩
    · exact .inl ⟨rfl, rfl, fun _ n hn => hnone n (List.mem_range.mpr hn)⟩
    · refine .inr ⟨rfl, group, index, rfl, rfl, hseen, hlow, n, ?_, hn, fun m hm => ?_⟩
      · rw [← List.mem_range, show s.fs.groupCount = s.kmalloc.2.fs.groupCount from rfl, hsplit]
        simp
      · refine hnone m ?_
        have hmem : m ∈ List.range s.kmalloc.2.fs.groupCount := by
          rw [List.mem_range]
          have : n ∈ List.range s.kmalloc.2.fs.groupCount := by
            rw [hsplit]
            simp
          exact hm.trans (List.mem_range.mp this)
        have hsorted := List.pairwise_lt_range (n := s.kmalloc.2.fs.groupCount)
        rw [hsplit, List.pairwise_append, List.pairwise_cons] at hsorted
        rw [hsplit] at hmem
        rcases List.mem_append.mp hmem with hmem | hmem
        · exact hmem
        · rcases List.mem_cons.mp hmem with rfl | hmem
          · exact absurd hm (lt_irrefl _)
          · exact absurd hm (not_lt.mpr (hsorted.2.1.1 m hmem).le)

theorem freeBit_quiet (hios : s.ios = []) (hgroup : group < s.fs.groupCount) :
    s.freeBit k group index = if s.kmalloc.1 = true then
        (0, { s.kmalloc.2 with fs := s.fs.dropBit k group index })
      else (-1, s.kmalloc.2) := by
  unfold freeBit
  rw [if_neg (not_le.mpr hgroup)]
  cases hok : s.kmalloc.1 with
  | false =>
    rw [show s.kmalloc = (false, s.kmalloc.2) from Prod.ext hok rfl]
    rfl
  | true =>
    rw [show s.kmalloc = (true, s.kmalloc.2) from Prod.ext hok rfl]
    dsimp only
    rw [if_neg (by decide), readBlock_quiet (s := s.kmalloc.2) hios]
    dsimp only
    rw [writeBlockRaw_quiet (s := s.kmalloc.2) hios]
    dsimp only
    rw [if_neg (lt_irrefl 0), if_pos rfl]
    rfl

end Ext4

end GcAos.Fs
