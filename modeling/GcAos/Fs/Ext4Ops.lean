import GcAos.Fs.Ext4Edit

/-! Every ext4 operation is a sequence of edits. -/

namespace GcAos.Fs
open Lib

namespace Ext4

/-- The calls of `kmalloc` and of the device that `s'` has still to come are the last ones of those
of `s`. -/
structure Later (s s' : Ext4) : Prop where
  kmallocs : s'.kmallocs <:+ s.kmallocs
  ios : s'.ios <:+ s.ios

namespace Later

variable {s s' s'' : Ext4}

theorem refl (s : Ext4) : Later s s := ⟨List.suffix_refl _, List.suffix_refl _⟩

theorem trans (h : Later s s') (h' : Later s' s'') : Later s s'' :=
  ⟨h'.kmallocs.trans h.kmallocs, h'.ios.trans h.ios⟩

theorem ios_nil (h : Later s s') (hs : s.ios = []) : s'.ios = [] :=
  List.suffix_nil.mp (hs ▸ h.ios)

theorem kmallocs_nil (h : Later s s') (hs : s.kmallocs = []) : s'.kmallocs = [] :=
  List.suffix_nil.mp (hs ▸ h.kmallocs)

end Later

variable {s s' : Ext4}

theorem kmalloc_eq {ok : Bool} (h : s.kmalloc = (ok, s')) :
    s'.fs = s.fs ∧ Later s s' ∧ (s.kmallocs = [] → ok = true) := by
  obtain ⟨rfl, rfl⟩ := Prod.mk.inj h
  refine ⟨rfl, ⟨List.tail_suffix _, List.suffix_refl _⟩, fun hnil => ?_⟩
  rw [hnil]
  rfl

theorem readBlock_eq {b : ℕ} {r : Option Bytes} (h : s.readBlock b = (r, s')) :
    s'.fs = s.fs ∧ Later s s' ∧ (∀ blk, r = some blk → blk = s.fs.device b) ∧
      (s.ios = [] → r = some (s.fs.device b)) := by
  obtain ⟨rfl, rfl⟩ := Prod.mk.inj h
  refine ⟨rfl, ⟨List.suffix_refl _, List.tail_suffix _⟩, ?_, fun hnil => ?_⟩
  · intro blk hblk
    obtain ⟨-, hblk⟩ := Option.ite_none_right_eq_some.mp hblk
    exact (Option.some.inj hblk).symm
  · rw [hnil]
    rfl

theorem writeBlockRaw_eq {b : ℕ} {buf : Bytes} {r : ℤ} (h : s.writeBlockRaw b buf = (r, s')) :
    Later s s' ∧ (r = -1 ∧ s'.fs = s.fs ∧ s.ios ≠ [] ∨ r = 0 ∧ s'.fs = s.fs.putBlock b buf) := by
  unfold writeBlockRaw io at h
  dsimp only at h
  split at h
  · obtain ⟨rfl, rfl⟩ := Prod.mk.inj h
    exact ⟨⟨List.suffix_refl _, List.tail_suffix _⟩, .inr ⟨rfl, rfl⟩⟩
  · next hfail =>
    obtain ⟨rfl, rfl⟩ := Prod.mk.inj h
    refine ⟨⟨List.suffix_refl _, List.tail_suffix _⟩, .inl ⟨rfl, rfl, ?_⟩⟩
    intro hnil
    rw [hnil] at hfail
    exact hfail rfl

def Allocated (k : BitmapKind) (fs fs' : Ext4Fs) (r : Option (ℕ × ℕ)) : Prop :=
  r = none ∧ fs' = fs ∨
    ∃ group index, r = some (group, index) ∧ group < fs.groupCount ∧ index < k.perGroup fs ∧
      fs.freeCount k group ≠ 0 ∧ (fs.device (k.bitmap fs group)).bit index = false ∧
      fs' = fs.takeBit k group index

theorem allocScan_eq {k : BitmapKind} {preferred : ℕ} {gs : List ℕ} {r : Option (ℕ × ℕ)}
    (hgs : ∀ n ∈ gs, n < s.fs.groupCount) (h : allocScan k preferred gs s = (r, s')) :
    Later s s' ∧ Allocated k s.fs s'.fs r := by
  induction gs generalizing s with
  | nil =>
    obtain ⟨rfl, rfl⟩ := Prod.mk.inj h
    exact ⟨.refl _, .inl ⟨rfl, rfl⟩⟩
  | cons n gs ih =>
    have hrest : ∀ n ∈ gs, n < s.fs.groupCount := fun m hm => hgs m (List.mem_cons_of_mem _ hm)
    have hpos : 0 < s.fs.groupCount := Nat.zero_lt_of_lt (hgs n (List.mem_cons_self ..))
    unfold allocScan at h
    dsimp only at h
    generalize hgroup : (preferred + n) % 2 ^ 32 % s.fs.groupCount = group at h
    have hlt : group < s.fs.groupCount := hgroup ▸ Nat.mod_lt _ hpos
    split at h
    · exact ih hrest h
    · next hfree =>
      rcases hread : s.readBlock (k.bitmap s.fs group) with ⟨bitmap?, s₁⟩
      obtain ⟨hfs₁, hlater₁, hsome, -⟩ := readBlock_eq hread
      rw [hread] at h
      dsimp only at h
      rw [← hfs₁] at hrest
      -- the groups left are tried from a state with the same file system
      have hnext (h : allocScan k preferred gs s₁ = (r, s')) :
          Later s s' ∧ Allocated k s.fs s'.fs r := by
        obtain ⟨hlater, hcases⟩ := ih hrest h
        rw [hfs₁] at hcases
        exact ⟨hlater₁.trans hlater, hcases⟩
      split at h
      · exact hnext h
      · next bitmap =>
        obtain rfl := hsome bitmap rfl
        split at h
        · exact hnext h
        · next index hindex =>
          rw [hfs₁] at h hindex
          obtain ⟨hper, -, hclear⟩ := Bytes.firstClear_eq_some hindex
          rcases hwrite : s₁.writeBlockRaw (k.bitmap s.fs group)
            ((s.fs.device (k.bitmap s.fs group)).setBit index) with ⟨ret, s₂⟩
          obtain ⟨hlater₂, hcases⟩ := writeBlockRaw_eq hwrite
          rw [hwrite] at h
          dsimp only at h
          rcases hcases with ⟨rfl, hfs₂, -⟩ | ⟨rfl, hfs₂⟩
          · obtain ⟨rfl, rfl⟩ := Prod.mk.inj h
            exact ⟨hlater₁.trans hlater₂, .inl ⟨rfl, hfs₂.trans hfs₁⟩⟩
          · obtain ⟨rfl, rfl⟩ := Prod.mk.inj h
            refine ⟨hlater₁.trans ⟨hlater₂.kmallocs, hlater₂.ios⟩, .inr ⟨group, index, rfl, hlt, hper,
              hfree, hclear, ?_⟩⟩
            dsimp only
            rw [hfs₂, hfs₁]
            rfl

theorem allocBit_eq {k : BitmapKind} {preferred : ℕ} {r : Option (ℕ × ℕ)}
    (h : s.allocBit k preferred = (r, s')) :
    Later s s' ∧ Allocated k s.fs s'.fs r := by
  unfold allocBit at h
  rcases hk : s.kmalloc with ⟨ok, s₁⟩
  obtain ⟨hfs₁, hlater₁, -⟩ := kmalloc_eq hk
  rw [hk] at h
  dsimp only at h
  split at h
  · obtain ⟨hlater, hcases⟩ := allocScan_eq (fun n hn => List.mem_range.mp hn) h
    rw [hfs₁] at hcases
    exact ⟨hlater₁.trans hlater, hcases⟩
  · obtain ⟨rfl, rfl⟩ := Prod.mk.inj h
    exact ⟨hlater₁, .inl ⟨rfl, hfs₁⟩⟩

theorem freeBit_eq {k : BitmapKind} {group index : ℕ} {r : ℤ}
    (h : s.freeBit k group index = (r, s')) :
    Later s s' ∧ (s'.fs = s.fs ∧ r = -1 ∨
      group < s.fs.groupCount ∧ r = 0 ∧ s'.fs = s.fs.dropBit k group index) := by
  unfold freeBit at h
  split at h
  · obtain ⟨rfl, rfl⟩ := Prod.mk.inj h
    exact ⟨.refl _, .inl ⟨rfl, rfl⟩⟩
  · next hgroup =>
    rcases hk : s.kmalloc with ⟨ok, s₁⟩
    obtain ⟨hfs₁, hlater₁, -⟩ := kmalloc_eq hk
    rw [hk] at h
    dsimp only at h
    split at h
    · obtain ⟨rfl, rfl⟩ := Prod.mk.inj h
      exact ⟨hlater₁, .inl ⟨hfs₁, rfl⟩⟩
    · rw [hfs₁] at h
      rcases hread : s₁.readBlock (k.bitmap s.fs group) with ⟨bitmap?, s₂⟩
      obtain ⟨hfs₂, hlater₂, hsome, -⟩ := readBlock_eq hread
      rw [hread] at h
      dsimp only at h
      have hlater := hlater₁.trans hlater₂
      split at h
      · obtain ⟨rfl, rfl⟩ := Prod.mk.inj h
        exact ⟨hlater, .inl ⟨hfs₂.trans hfs₁, rfl⟩⟩
      · next bitmap =>
        obtain rfl := hsome bitmap rfl
        rw [hfs₂, hfs₁] at h
        rcases hwrite : s₂.writeBlockRaw (k.bitmap s.fs group)
          ((s.fs.device (k.bitmap s.fs group)).clearBit index) with ⟨ret, s₃⟩
        obtain ⟨hlater₃, hcases⟩ := writeBlockRaw_eq hwrite
        rw [hwrite] at h
        dsimp only at h
        rcases hcases with ⟨rfl, hfs₃, -⟩ | ⟨rfl, hfs₃⟩
        · obtain ⟨rfl, rfl⟩ := Prod.mk.inj h
          exact ⟨hlater.trans hlater₃, .inl ⟨hfs₃.trans (hfs₂.trans hfs₁), rfl⟩⟩
        · obtain ⟨rfl, rfl⟩ := Prod.mk.inj h
          refine ⟨hlater.trans ⟨hlater₃.kmallocs, hlater₃.ios⟩, .inr ⟨not_le.mp hgroup, rfl, ?_⟩⟩
          dsimp only
          rw [hfs₃, hfs₂, hfs₁]
          rfl

section
variable {g : Geometry} {ino : ℕ} (hfs : s.fs.geometry = g)
include hfs

theorem readInode_eq (hg : g.Sane) {r : Option Bytes} (h : s.readInode ino = (r, s')) :
    s'.fs = s.fs ∧ Later s s' ∧
      (∀ v, r = some v → g.ValidIno ino ∧ v = g.inode s.fs.device ino) ∧
      (s.kmallocs = [] → s.ios = [] → g.ValidIno ino → r = some (g.inode s.fs.device ino)) := by
  have hnone {r : Option Bytes} {s' : Ext4} (h : (none, s) = (r, s')) (hvalid : ¬g.ValidIno ino) :
      s'.fs = s.fs ∧ Later s s' ∧
        (∀ v, r = some v → g.ValidIno ino ∧ v = g.inode s.fs.device ino) ∧
        (s.kmallocs = [] → s.ios = [] → g.ValidIno ino → r = some (g.inode s.fs.device ino)) := by
    obtain ⟨rfl, rfl⟩ := Prod.mk.inj h
    exact ⟨rfl, .refl _, fun v hv => Option.noConfusion rfl (heq_of_eq hv),
      fun _ _ h => absurd h hvalid⟩
  unfold readInode at h
  split at h
  · next hzero => exact hnone h fun hvalid => hvalid.1 hzero
  split at h
  · next hgroup =>
    refine hnone h fun hvalid => ?_
    subst hfs
    exact absurd hvalid.2 (not_lt.mpr hgroup)
  · next hzero hgroup =>
    have hvalid : g.ValidIno ino := by
      subst hfs
      exact ⟨hzero, not_le.mp hgroup⟩
    rcases hk : s.kmalloc with ⟨ok, s₁⟩
    obtain ⟨hfs₁, hlater₁, hok⟩ := kmalloc_eq hk
    rw [hk] at h
    dsimp only at h
    split at h
    · next hfail =>
      obtain ⟨rfl, rfl⟩ := Prod.mk.inj h
      refine ⟨hfs₁, hlater₁, fun v hv => Option.noConfusion rfl (heq_of_eq hv), fun hnil => ?_⟩
      rw [hok hnil] at hfail
      cases hfail
    · rw [hfs₁, Ext4Fs.inodeBlock_eq hfs hg] at h
      rcases hread : s₁.readBlock (g.place (g.inodeArea ino)) with ⟨buf?, s₂⟩
      obtain ⟨hfs₂, hlater₂, hsome, hquiet⟩ := readBlock_eq hread
      rw [hread] at h
      dsimp only at h
      obtain ⟨rfl, rfl⟩ := Prod.mk.inj h
      rw [hfs₂, hfs₁, Ext4Fs.inodeOffset_eq hfs hg]
      refine ⟨rfl, hlater₁.trans hlater₂, ?_, ?_⟩
      · intro v hv
        obtain ⟨buf, hbuf, rfl⟩ := Option.map_eq_some_iff.mp hv
        rw [hsome buf hbuf, hfs₁]
        exact ⟨hvalid, rfl⟩
      · intro _ hios _
        rw [hquiet (hlater₁.ios_nil hios), hfs₁]
        rfl

theorem writeInode_eq {v : Bytes} {r : ℤ} (h : s.writeInode ino v = (r, s')) :
    Later s s' ∧ (r = -1 ∧ s'.fs = s.fs ∧ ¬(g.ValidIno ino ∧ s.kmallocs = [] ∧ s.ios = []) ∨
      r = 0 ∧ g.ValidIno ino ∧ s'.fs = s.fs.putInode ino v) := by
  unfold writeInode at h
  split at h
  · next hzero =>
    obtain ⟨rfl, rfl⟩ := Prod.mk.inj h
    exact ⟨.refl _, .inl ⟨rfl, rfl, fun hvalid => hvalid.1.1 hzero⟩⟩
  split at h
  · next hgroup =>
    obtain ⟨rfl, rfl⟩ := Prod.mk.inj h
    refine ⟨.refl _, .inl ⟨rfl, rfl, fun hvalid => ?_⟩⟩
    subst hfs
    exact absurd hvalid.1.2 (not_lt.mpr hgroup)
  · next hzero hgroup =>
    have hvalid : g.ValidIno ino := by
      subst hfs
      exact ⟨hzero, not_le.mp hgroup⟩
    rcases hk : s.kmalloc with ⟨ok, s₁⟩
    obtain ⟨hfs₁, hlater₁, hok⟩ := kmalloc_eq hk
    rw [hk] at h
    dsimp only at h
    split at h
    · next hfail =>
      obtain ⟨rfl, rfl⟩ := Prod.mk.inj h
      refine ⟨hlater₁, .inl ⟨rfl, hfs₁, fun hnil => ?_⟩⟩
      rw [hok hnil.2.1] at hfail
      cases hfail
    · rw [hfs₁] at h
      rcases hread : s₁.readBlock (s.fs.inodeBlock ino) with ⟨buf?, s₂⟩
      obtain ⟨hfs₂, hlater₂, hsome, hquiet⟩ := readBlock_eq hread
      rw [hread] at h
      dsimp only at h
      have hlater := hlater₁.trans hlater₂
      split at h
      · obtain ⟨rfl, rfl⟩ := Prod.mk.inj h
        refine ⟨hlater, .inl ⟨rfl, hfs₂.trans hfs₁, fun hnil => ?_⟩⟩
        exact absurd (hquiet (hlater₁.ios_nil hnil.2.2)) (Option.some_ne_none _).symm
      · next buf =>
        obtain rfl := hsome buf rfl
        obtain ⟨hlater₃, hcases⟩ := writeBlockRaw_eq h
        rw [hfs₂, hfs₁] at hcases
        refine ⟨hlater.trans hlater₃, ?_⟩
        rcases hcases with ⟨rfl, hsame, hios⟩ | ⟨rfl, hput⟩
        · exact .inl ⟨rfl, hsame, fun hnil => hios (hlater.ios_nil hnil.2.2)⟩
        · exact .inr ⟨rfl, hvalid, hput⟩

omit hfs in
theorem readPtr_eq {b i r : ℕ} (h : s.readPtr b i = (r, s')) :
    s'.fs = s.fs ∧ Later s s' ∧ (r = 0 ∨ r = ptrAt (s.fs.device b) i) ∧
      (s.kmallocs = [] → s.ios = [] → r = ptrAt (s.fs.device b) i) := by
  unfold readPtr at h
  rcases hk : s.kmalloc with ⟨ok, s₁⟩
  obtain ⟨hfs₁, hlater₁, hok⟩ := kmalloc_eq hk
  rw [hk] at h
  dsimp only at h
  split at h
  · next hfail =>
    obtain ⟨rfl, rfl⟩ := Prod.mk.inj h
    refine ⟨hfs₁, hlater₁, .inl rfl, fun hnil => ?_⟩
    rw [hok hnil] at hfail
    cases hfail
  · rcases hread : s₁.readBlock b with ⟨buf?, s₂⟩
    obtain ⟨hfs₂, hlater₂, hsome, hquiet⟩ := readBlock_eq hread
    rw [hread] at h
    dsimp only at h
    rw [hfs₁] at hsome hquiet
    split at h
    · obtain ⟨rfl, rfl⟩ := Prod.mk.inj h
      refine ⟨hfs₂.trans hfs₁, hlater₁.trans hlater₂, .inl rfl, fun _ hios => ?_⟩
      exact absurd (hquiet (hlater₁.ios_nil hios)) (Option.some_ne_none _).symm
    · next buf =>
      obtain rfl := hsome buf rfl
      obtain ⟨rfl, rfl⟩ := Prod.mk.inj h
      exact ⟨hfs₂.trans hfs₁, hlater₁.trans hlater₂, .inr rfl, fun _ _ => rfl⟩

theorem getFileBlock_eq {v : Bytes} {fb r : ℕ} (h : s.getFileBlock v fb = (r, s')) :
    s'.fs = s.fs ∧ Later s s' ∧ (r = 0 ∨ r = g.fileBlock s.fs.device v fb) ∧
      (s.kmallocs = [] → s.ios = [] → r = g.fileBlock s.fs.device v fb) := by
  have hptrs : s.fs.ptrsPerBlock = g.shape.arity := by
    subst hfs
    rfl
  unfold getFileBlock at h
  unfold Geometry.fileBlock
  split at h
  · next hdir =>
    simp only [hdir, ↓reduceDIte]
    obtain ⟨rfl, rfl⟩ := Prod.mk.inj h
    exact ⟨rfl, .refl _, .inr rfl, fun _ _ => rfl⟩
  · next hdir =>
    simp only [hdir, ↓reduceDIte]
    rw [hptrs] at h
    dsimp only at h
    split at h
    · next hind =>
      simp only [hind, ↓reduceIte]
      split at h
      · next hzero =>
        simp only [hzero, ↓reduceIte]
        obtain ⟨rfl, rfl⟩ := Prod.mk.inj h
        exact ⟨rfl, .refl _, .inl rfl, fun _ _ => rfl⟩
      · next hne =>
        simp only [hne, ↓reduceIte]
        exact readPtr_eq h
    · next hind =>
      simp only [hind, ↓reduceIte]
      split at h
      · next hdind =>
        simp only [hdind, ↓reduceIte]
        split at h
        · next hzero =>
          simp only [hzero, ↓reduceIte]
          obtain ⟨rfl, rfl⟩ := Prod.mk.inj h
          exact ⟨rfl, .refl _, .inl rfl, fun _ _ => rfl⟩
        · next hne =>
          simp only [hne, ↓reduceIte]
          rcases hptr : s.readPtr (iBlock v ext4DindBlock)
            ((fb - ext4NdirBlocks - g.shape.arity) / g.shape.arity) with ⟨ind, s₁⟩
          obtain ⟨hfs₁, hlater₁, hind₁, hquiet₁⟩ := readPtr_eq hptr
          rw [hptr] at h
          dsimp only at h
          split at h
          · next hzero =>
            obtain ⟨rfl, rfl⟩ := Prod.mk.inj h
            refine ⟨hfs₁, hlater₁, .inl rfl, fun hk hio => ?_⟩
            rw [← hquiet₁ hk hio, if_pos hzero]
          · next hchild =>
            obtain ⟨hfs₂, hlater₂, hr, hquiet₂⟩ := readPtr_eq h
            have hsame := hind₁.resolve_left hchild
            rw [← hsame, if_neg hchild]
            rw [hfs₁] at hfs₂ hr hquiet₂
            exact ⟨hfs₂, hlater₁.trans hlater₂, hr, fun hk hio =>
              hquiet₂ (hlater₁.kmallocs_nil hk) (hlater₁.ios_nil hio)⟩
      · next hdind =>
        simp only [hdind, ↓reduceIte]
        obtain ⟨rfl, rfl⟩ := Prod.mk.inj h
        exact ⟨rfl, .refl _, .inl rfl, fun _ _ => rfl⟩

end

section
variable {g : Geometry} (hfs : s.fs.geometry = g) (hg : g.Sane)
include hfs hg

theorem allocBlock_eq {preferred : ℕ} {n : ℤ} (h : s.allocBlock preferred = (n, s')) :
    Later s s' ∧ (n < 0 ∧ s'.fs = s.fs ∨
      ∃ group index, group < g.groupCount ∧ index < g.blocksPerGroup ∧
        (s.fs.device (g.blockBitmap group)).bit index = false ∧
        s'.fs = s.fs.takeBit .block group index ∧
        (n < 0 ∨ 0 ≤ n ∧ n.toNat = g.blockAt group index)) := by
  unfold allocBlock at h
  rcases hbit : s.allocBit .block preferred with ⟨r, s₁⟩
  obtain ⟨hlater, hcases⟩ := allocBit_eq hbit
  rw [hbit] at h
  dsimp only at h
  rcases hcases with ⟨rfl, hsame⟩ | ⟨group, index, rfl, hgroup, hindex, -, hclear, hfs₁⟩
  · obtain ⟨rfl, rfl⟩ := Prod.mk.inj h
    exact ⟨hlater, .inl ⟨by decide, hsame⟩⟩
  · obtain ⟨rfl, rfl⟩ := Prod.mk.inj h
    have hgeo : s₁.fs.geometry = g := by rw [hfs₁, Ext4Fs.geometry_takeBit, hfs]
    have hat : s₁.fs.super .firstDataBlock + group * s₁.fs.blocksPerGroup + index =
        g.blockAt group index := by
      subst hgeo
      rfl
    rw [hat]
    subst hfs
    refine ⟨hlater, .inr ⟨group, index, hgroup, hindex, hclear, hfs₁, ?_⟩⟩
    exact toInt_cases ((Geometry.inRange_blockAt hgroup hindex).2.trans_le hg.blocks_le)

theorem freeBlock_eq {b : ℕ} {r : ℤ} (hb : g.InRange b) (h : s.freeBlock b = (r, s')) :
    Later s s' ∧ (s'.fs = s.fs ∨ s'.fs = s.fs.dropBit .block (g.groupOf b) (g.indexOf b)) := by
  have hgroup : g.groupOf b < 2 ^ 32 := by
    have hb' := hb.2.trans_le hg.blocks_le
    have hle := Nat.div_le_self (b - g.firstDataBlock) g.blocksPerGroup
    rw [Geometry.groupOf]
    omega
  subst hfs
  unfold freeBlock at h
  rw [if_neg (show ¬b < s.fs.super .firstDataBlock from not_lt.mpr hb.1)] at h
  dsimp only at h
  obtain ⟨hlater, hcases⟩ := freeBit_eq h
  refine ⟨hlater, ?_⟩
  rcases hcases with ⟨hsame, -⟩ | ⟨-, -, hdrop⟩
  · exact .inl hsame
  · rw [show (b - s.fs.super .firstDataBlock) / s.fs.blocksPerGroup % 2 ^ 32 =
      s.fs.geometry.groupOf b from Nat.mod_eq_of_lt hgroup] at hdrop
    exact .inr hdrop

theorem allocInode_eq {preferred : ℕ} {n : ℤ} (h : s.allocInode preferred = (n, s')) :
    Later s s' ∧ (n < 0 ∧ s'.fs = s.fs ∨
      ∃ group index, group < g.groupCount ∧ index < g.inodesPerGroup ∧
        (s.fs.device (g.inodeBitmap group)).bit index = false ∧
        s'.fs = s.fs.takeBit .inode group index ∧
        (n < 0 ∨ 0 ≤ n ∧ n.toNat = group * g.inodesPerGroup + index + 1)) := by
  unfold allocInode at h
  rcases hbit : s.allocBit .inode preferred with ⟨r, s₁⟩
  obtain ⟨hlater, hcases⟩ := allocBit_eq hbit
  rw [hbit] at h
  dsimp only at h
  rcases hcases with ⟨rfl, hsame⟩ | ⟨group, index, rfl, hgroup, hindex, -, hclear, hfs₁⟩
  · obtain ⟨rfl, rfl⟩ := Prod.mk.inj h
    exact ⟨hlater, .inl ⟨by decide, hsame⟩⟩
  · obtain ⟨rfl, rfl⟩ := Prod.mk.inj h
    have hper : s₁.fs.inodesPerGroup = g.inodesPerGroup := by
      rw [hfs₁, ← hfs]
      rfl
    rw [hper]
    subst hfs
    refine ⟨hlater, .inr ⟨group, index, hgroup, hindex, hclear, hfs₁, ?_⟩⟩
    have hmul : (group + 1) * s.fs.inodesPerGroup ≤ s.fs.groupCount * s.fs.inodesPerGroup :=
      Nat.mul_le_mul_right _ hgroup
    have hlt : s.fs.groupCount * s.fs.inodesPerGroup < 2 ^ 32 := hg.inodes_lt
    have hindex : index < s.fs.inodesPerGroup := hindex
    rw [Nat.succ_mul] at hmul
    apply toInt_cases
    show group * s.fs.inodesPerGroup + index + 1 < 2 ^ 32
    omega

end

/-- All `ext4_set_file_block` may do to the inode is to set one pointer, and never one of the
indirect block that is there. -/
def SetsPointer (v v' : Bytes) : Prop :=
  v' = v ∨ ∃ k x, v' = ext4Inode.set v 0 (.block k) x ∧
    (k = ext4IndBlock → iBlock v ext4IndBlock = 0)

theorem SetsPointer.get_eq {v v' : Bytes} {f : InodeField} (h : SetsPointer v v')
    (hf : ∀ k, f ≠ .block k) : ext4Inode.get v' 0 f = ext4Inode.get v 0 f := by
  rcases h with rfl | ⟨k, x, rfl, -⟩
  · rfl
  · exact Layout.get_set_of_field_ne (hf k).symm

theorem SetsPointer.ind_eq {v v' : Bytes} (h : SetsPointer v v') (hne : iBlock v ext4IndBlock ≠ 0) :
    iBlock v' ext4IndBlock = iBlock v ext4IndBlock := by
  rcases h with rfl | ⟨k, x, rfl, hk⟩
  · rfl
  · exact Geometry.iBlock_set_of_ne fun heq => hne (hk (InodeField.block.inj heq))

inductive MakeRoute (s : Ext4) (v : Bytes) (group : ℕ) : ℤ → Bytes → Ext4 → Prop
  | there : iBlock v ext4IndBlock ≠ 0 → MakeRoute s v group 0 v s
  | full {n : ℤ} {s₁ : Ext4} : iBlock v ext4IndBlock = 0 → s.allocBlock group = (n, s₁) → n < 0 →
      MakeRoute s v group (-1) v s₁
  -- the memory or the device fails
  | unzeroed {n : ℤ} {s₁ s' : Ext4} : iBlock v ext4IndBlock = 0 → s.allocBlock group = (n, s₁) →
      0 ≤ n → Later s₁ s' → s'.fs = s₁.fs → s₁.kmallocs ≠ [] ∨ s₁.ios ≠ [] →
      MakeRoute s v group 0 (ext4Inode.set v 0 (.block ext4IndBlock) n.toNat) s'
  | zeroed {n : ℤ} {s₁ s' : Ext4} : iBlock v ext4IndBlock = 0 → s.allocBlock group = (n, s₁) →
      0 ≤ n → Later s₁ s' → s'.fs = s₁.fs.putBlock n.toNat (fun _ => 0) →
      MakeRoute s v group 0 (ext4Inode.set v 0 (.block ext4IndBlock) n.toNat) s'

theorem makeIndirect_route {v v' : Bytes} {group : ℕ} {r : ℤ}
    (h : s.makeIndirect v group = (r, v', s')) : MakeRoute s v group r v' s' := by
  unfold makeIndirect at h
  split at h
  swap
  · next hsome =>
    cases h
    exact .there hsome
  next hnone =>
  rcases halloc : s.allocBlock group with ⟨n, s₁⟩
  rw [halloc] at h
  dsimp only at h
  split at h
  · next hneg =>
    cases h
    exact .full hnone halloc hneg
  next hpos =>
  rcases hkm : s₁.kmalloc with ⟨ok, s₂⟩
  obtain ⟨hfs₂, hlater₂, hok⟩ := kmalloc_eq hkm
  rw [hkm] at h
  dsimp only at h
  split at h
  · rcases hwrite : s₂.writeBlockRaw n.toNat fun _ => 0 with ⟨ret, s₃⟩
    rw [hwrite] at h
    cases h
    obtain ⟨hlater₃, ⟨-, hsame, hios⟩ | ⟨-, hput⟩⟩ := writeBlockRaw_eq hwrite
    · have hios₁ : s₁.ios ≠ [] := fun hnil => hios (hlater₂.ios_nil hnil)
      exact .unzeroed hnone halloc (not_lt.mp hpos) (hlater₂.trans hlater₃) (hsame.trans hfs₂)
        (.inr hios₁)
    · exact .zeroed hnone halloc (not_lt.mp hpos) (hlater₂.trans hlater₃) (hfs₂ ▸ hput)
  · next hfail =>
    cases h
    exact .unzeroed hnone halloc (not_lt.mp hpos) hlater₂ hfs₂ (.inl fun hnil => hfail (hok hnil))

theorem makeIndirect_inode {v v' : Bytes} {group : ℕ} {r : ℤ}
    (h : s.makeIndirect v group = (r, v', s')) : SetsPointer v v' := by
  cases makeIndirect_route h with
  | there => exact .inl rfl
  | full => exact .inl rfl
  | unzeroed hnone => exact .inr ⟨ext4IndBlock, _, rfl, fun _ => hnone⟩
  | zeroed hnone => exact .inr ⟨ext4IndBlock, _, rfl, fun _ => hnone⟩

/-- The end of `ext4_set_file_block`: pointer `i` of the single indirect block is set. -/
def linkBlock (s : Ext4) (v : Bytes) (i d : ℕ) : ℤ × Bytes × Ext4 :=
  if !s.kmalloc.1 then (-1, v, s.kmalloc.2)
  else match s.kmalloc.2.readBlock (iBlock v ext4IndBlock) with
    | (none, s) => (-1, v, s)
    | (some buf, s) =>
      let w := s.writeBlockRaw (iBlock v ext4IndBlock) (buf.store (4 * i) 4 d)
      (w.1, v, w.2)

theorem linkBlock_eq {v v' : Bytes} {i d : ℕ} {r : ℤ} (h : s.linkBlock v i d = (r, v', s')) :
    v' = v ∧ Later s s' ∧ (r = -1 ∧ s'.fs = s.fs ∨
      r = 0 ∧ s'.fs = s.fs.putBlock (iBlock v ext4IndBlock)
        ((s.fs.device (iBlock v ext4IndBlock)).store (4 * i) 4 d)) := by
  unfold linkBlock at h
  obtain ⟨hfs₁, hlater₁, -⟩ := kmalloc_eq (Prod.eta s.kmalloc).symm
  split at h
  · cases h
    exact ⟨rfl, hlater₁, .inl ⟨rfl, hfs₁⟩⟩
  rcases hread : s.kmalloc.2.readBlock (iBlock v ext4IndBlock) with ⟨_ | buf, s₂⟩
  all_goals
    obtain ⟨hfs₂, hlater₂, hsome, -⟩ := readBlock_eq hread
    rw [hread] at h
    dsimp only at h
  · cases h
    exact ⟨rfl, hlater₁.trans hlater₂, .inl ⟨rfl, hfs₂.trans hfs₁⟩⟩
  · obtain rfl := hsome buf rfl
    rcases hwrite : s₂.writeBlockRaw (iBlock v ext4IndBlock)
      ((s.kmalloc.2.fs.device (iBlock v ext4IndBlock)).store (4 * i) 4 d) with ⟨ret, s₃⟩
    obtain ⟨hlater₃, hcases⟩ := writeBlockRaw_eq hwrite
    rw [hwrite] at h
    cases h
    rw [hfs₂, hfs₁] at hcases
    exact ⟨rfl, hlater₁.trans (hlater₂.trans hlater₃), hcases.imp_left fun hc => ⟨hc.1, hc.2.1⟩⟩

theorem setFileBlock_beyond {v v₁ : Bytes} {fb d ino : ℕ} {ret : ℤ} {s₁ : Ext4}
    (hdir : ¬fb < ext4NdirBlocks) (hin : fb - ext4NdirBlocks < s.fs.ptrsPerBlock)
    (hmake : s.makeIndirect v (s.inodeGroup ino) = (ret, v₁, s₁)) :
    s.setFileBlock v fb d ino =
      if ret < 0 then (-1, v₁, s₁) else s₁.linkBlock v₁ (fb - ext4NdirBlocks) d := by
  unfold setFileBlock
  rw [dif_neg hdir]
  dsimp only
  rw [if_pos hin, hmake]
  dsimp only
  refine if_congr Iff.rfl rfl ?_
  unfold linkBlock
  refine if_congr Iff.rfl rfl ?_
  rcases s₁.kmalloc.2.readBlock (iBlock v₁ ext4IndBlock) with ⟨_ | buf, s₂⟩
  all_goals rfl

/-- The routes through `ext4_set_file_block`. -/
inductive SetRoute (s : Ext4) (v : Bytes) (fb d ino : ℕ) : ℤ → Bytes → Ext4 → Prop
  | direct (hdir : fb < ext4NdirBlocks) :
      SetRoute s v fb d ino 0 (ext4Inode.set v 0 (.block ⟨fb, lt_iBlock hdir⟩) d) s
  -- beyond the single indirect block
  | unreached : s.fs.ptrsPerBlock ≤ fb - ext4NdirBlocks → ext4NdirBlocks ≤ fb →
      SetRoute s v fb d ino (-1) v s
  | unmade {ret : ℤ} {v₁ : Bytes} {s₁ : Ext4} : ext4NdirBlocks ≤ fb →
      fb - ext4NdirBlocks < s.fs.ptrsPerBlock →
      s.makeIndirect v (s.inodeGroup ino) = (ret, v₁, s₁) → ret < 0 →
      SetRoute s v fb d ino (-1) v₁ s₁
  -- the memory or the device fails afterwards
  | unlinked {ret : ℤ} {v₁ : Bytes} {s₁ s' : Ext4} : ext4NdirBlocks ≤ fb →
      fb - ext4NdirBlocks < s.fs.ptrsPerBlock →
      s.makeIndirect v (s.inodeGroup ino) = (ret, v₁, s₁) → 0 ≤ ret → Later s₁ s' →
      s'.fs = s₁.fs → SetRoute s v fb d ino (-1) v₁ s'
  | linked {ret : ℤ} {v₁ : Bytes} {s₁ s' : Ext4} : ext4NdirBlocks ≤ fb →
      fb - ext4NdirBlocks < s.fs.ptrsPerBlock →
      s.makeIndirect v (s.inodeGroup ino) = (ret, v₁, s₁) → 0 ≤ ret → Later s₁ s' →
      s'.fs = s₁.fs.putBlock (iBlock v₁ ext4IndBlock)
        ((s₁.fs.device (iBlock v₁ ext4IndBlock)).store (4 * (fb - ext4NdirBlocks)) 4 d) →
      SetRoute s v fb d ino 0 v₁ s'

theorem setFileBlock_route {v v' : Bytes} {fb d ino : ℕ} {r : ℤ}
    (h : s.setFileBlock v fb d ino = (r, v', s')) : SetRoute s v fb d ino r v' s' := by
  by_cases hdir : fb < ext4NdirBlocks
  · rw [setFileBlock, dif_pos hdir] at h
    cases h
    exact .direct hdir
  by_cases hin : fb - ext4NdirBlocks < s.fs.ptrsPerBlock
  · rcases hmake : s.makeIndirect v (s.inodeGroup ino) with ⟨ret, v₁, s₁⟩
    rw [setFileBlock_beyond hdir hin hmake] at h
    split at h
    · next hneg =>
      cases h
      exact .unmade (not_lt.mp hdir) hin hmake hneg
    · next hpos =>
      obtain ⟨rfl, hlater, ⟨rfl, hfs⟩ | ⟨rfl, hfs⟩⟩ := linkBlock_eq h
      · exact .unlinked (not_lt.mp hdir) hin hmake (not_lt.mp hpos) hlater hfs
      · exact .linked (not_lt.mp hdir) hin hmake (not_lt.mp hpos) hlater hfs
  · rw [setFileBlock, dif_neg hdir] at h
    dsimp only at h
    rw [if_neg hin] at h
    cases h
    exact .unreached (not_lt.mp hin) (not_lt.mp hdir)

theorem setFileBlock_inode {v v' : Bytes} {fb b ino : ℕ} {r : ℤ}
    (h : s.setFileBlock v fb b ino = (r, v', s')) : SetsPointer v v' := by
  cases setFileBlock_route h with
  | direct hdir =>
    refine .inr ⟨_, b, rfl, fun hk => ?_⟩
    have hval : fb = 12 := congrArg Fin.val hk
    exact absurd hdir (by rw [hval]; decide)
  | unreached => exact .inl rfl
  | unmade _ _ hmake => exact makeIndirect_inode hmake
  | unlinked _ _ hmake => exact makeIndirect_inode hmake
  | linked _ _ hmake => exact makeIndirect_inode hmake

end Ext4

open Ext4 Draft

/-- The code leads from `s` to `s'` by edits that lead from `D` to `D'`. -/
structure Makes (g : Geometry) (I : Set ℕ) (D : Draft) (s s' : Ext4) (D' : Draft) : Prop where
  later : Later s s'
  edits : DraftEdits g I D D'
  fs : D'.fs = s'.fs
  root : ∀ k b, D.root k b → D'.root k b
  inodes : D'.inodes = D.inodes
  inode : ∀ i, g.ValidIno i → g.inode s'.fs.device i = g.inode s.fs.device i

namespace Makes

variable {g : Geometry} {I : Set ℕ} {L : Set ℕ} {D D' D'' : Draft} {s s' s'' : Ext4} {ino : ℕ}

theorem trans (h : Makes g I D s s' D') (h' : Makes g I D' s' s'' D'') : Makes g I D s s'' D'' where
  later := h.later.trans h'.later
  edits := Relation.ReflTransGen.trans h.edits h'.edits
  fs := h'.fs
  root k b hb := h'.root k b (h.root k b hb)
  inodes := h'.inodes.trans h.inodes
  inode i hi := (h'.inode i hi).trans (h.inode i hi)

theorem stay (hD : D.fs = s.fs) (hlater : Later s s') (hfs : s'.fs = s.fs) :
    Makes g I D s s' D where
  later := hlater
  edits := .refl
  fs := hD.trans hfs.symm
  root _ _ := id
  inodes := rfl
  inode i _ := by rw [hfs]

theorem single (hs : Sound g L D) (hD : D.fs = s.fs) (hino : ino ∈ I) (hlater : Later s s')
    (hwork : Work g ino D D') (hfs : D'.fs = s'.fs) (hroot : ∀ k b, D.root k b → D'.root k b)
    (hinodes : D'.inodes = D.inodes) : Makes g I D s s' D' where
  later := hlater
  edits := .single ⟨ino, hino, .work hwork⟩
  fs := hfs
  root := hroot
  inodes := hinodes
  inode i hi := by
    rw [← hfs, ← hD]
    exact hs.inode_work hwork hi

end Makes

/-- A block of inode `ino` that holds no pointers. -/
def Draft.Leaf (g : Geometry) (D : Draft) (ino b : ℕ) : Prop :=
  ∃ k p, D.Refs g (ino, k) p b ∧ p.length = g.shape.depth (ino, k)

section
variable {g : Geometry} {I L : Set ℕ} {D : Draft} {s s' : Ext4} {ino : ℕ}
  (hs : Sound g L D) (hD : D.fs = s.fs) (hI : ino ∈ I)

include hs hD hI

theorem writeBlockRaw_makes {b : ℕ} {buf : Bytes} {r : ℤ}
    (hb : b ∈ D.held ∨ D.Leaf g ino b) (h : s.writeBlockRaw b buf = (r, s')) :
    ∃ D', Makes g I D s s' D' ∧ D'.root = D.root ∧ D'.held = D.held := by
  obtain ⟨hlater, ⟨-, hsame, -⟩ | ⟨-, hput⟩⟩ := writeBlockRaw_eq h
  · exact ⟨D, .stay hD hlater hsame, rfl, rfl⟩
  · refine ⟨_, .single hs hD hI hlater (.write buf hb) ?_ (fun _ _ => id) rfl, rfl, rfl⟩
    rw [hput, ← hD]

omit hI in
theorem geometry_eq : s.fs.geometry = g := by rw [← hD, hs.geometry]

theorem allocBlock_makes {preferred : ℕ} {n : ℤ} (h : s.allocBlock preferred = (n, s')) :
    ∃ D', Makes g I D s s' D' ∧ D'.root = D.root ∧ D.held ⊆ D'.held ∧
      (0 ≤ n → n.toNat ∈ D'.held ∧ n.toNat ∉ D.held) := by
  obtain ⟨hlater, hcases⟩ := allocBlock_eq (geometry_eq hs hD) hs.sane h
  rcases hcases with ⟨hneg, hsame⟩ | ⟨group, index, hgroup, hindex, hclear, hfs, hn⟩
  · exact ⟨D, .stay hD hlater hsame, rfl, Finset.Subset.refl _, fun hpos => absurd hpos (by omega)⟩
  · rw [← hD] at hclear
    refine ⟨_, .single hs hD hI hlater (.take hgroup hindex hclear) ?_ (fun _ _ => id) rfl, rfl,
      Finset.subset_insert _ _, fun hpos => ?_⟩
    · rw [hfs, ← hD]
    · rcases hn with hneg | ⟨-, hn⟩
      · omega
      · rw [hn]
        refine ⟨Finset.mem_insert_self _ _, fun hold => ?_⟩
        have hused := (hs.held _ hold).used
        rw [Draft.Sound.used_blockAt hindex, hclear] at hused
        cases hused

theorem freeBlock_makes {b : ℕ} {r : ℤ} (hb : b ∈ D.held) (h : s.freeBlock b = (r, s')) :
    ∃ D', Makes g I D s s' D' ∧ D'.root = D.root ∧ D.held.erase b ⊆ D'.held := by
  obtain ⟨hlater, hcases⟩ := freeBlock_eq (geometry_eq hs hD) hs.sane (hs.held b hb).inRange h
  rcases hcases with hsame | hdrop
  · exact ⟨D, .stay hD hlater hsame, rfl, Finset.erase_subset _ _⟩
  · refine ⟨_, .single hs hD hI hlater (.drop hb) ?_ (fun _ _ => id) rfl, rfl, Finset.Subset.refl _⟩
    rw [hdrop, ← hD]

theorem writeInode_edits {v : Bytes} {r : ℤ} (hv : Geometry.Rooted D.root ino v)
    (h : s.writeInode ino v = (r, s')) :
    Later s s' ∧ ∃ D', DraftEdits g I D D' ∧ D'.fs = s'.fs ∧ D'.root = D.root ∧ D'.inodes = D.inodes := by
  obtain ⟨hlater, ⟨-, hsame, -⟩ | ⟨-, hvalid, hput⟩⟩ := writeInode_eq (geometry_eq hs hD) h
  · exact ⟨hlater, D, .refl, hD.trans hsame.symm, rfl, rfl⟩
  · refine ⟨hlater, _, .single ⟨ino, hI, .putInode hvalid hv⟩, ?_, rfl, rfl⟩
    rw [hput, ← hD]

theorem freeInode_edits {newIno : ℕ} {r : ℤ}
    (hx : ((newIno - 1) / g.inodesPerGroup, (newIno - 1) % g.inodesPerGroup) ∈ D.inodes)
    (h : s.freeInode newIno = (r, s')) :
    Later s s' ∧ ∃ D', DraftEdits g I D D' ∧ D'.fs = s'.fs := by
  unfold freeInode at h
  split at h
  · obtain ⟨rfl, rfl⟩ := Prod.mk.inj h
    exact ⟨.refl _, D, .refl, hD⟩
  · have hper : s.fs.inodesPerGroup = g.inodesPerGroup :=
      congrArg Geometry.inodesPerGroup (geometry_eq hs hD)
    rw [hper] at h
    obtain ⟨hlater, ⟨hsame, -⟩ | ⟨-, -, hdrop⟩⟩ := freeBit_eq h
    · exact ⟨hlater, D, .refl, hD.trans hsame.symm⟩
    · refine ⟨hlater, _, .single ⟨ino, hI, .work (.dropInode hx)⟩, ?_⟩
      rw [hdrop, ← hD]

theorem makeIndirect_makes {v v' : Bytes} {group : ℕ} {r : ℤ}
    (hv : Geometry.Rooted D.root ino v)
    (hzero : iBlock v ext4IndBlock = 0 → s.kmallocs = [] ∧ s.ios = [])
    (h : s.makeIndirect v group = (r, v', s')) :
    ∃ D', Makes g I D s s' D' ∧ Geometry.Rooted D'.root ino v' ∧ D.held ⊆ D'.held ∧
      (0 ≤ r → iBlock v' ext4IndBlock ≠ 0) := by
  cases makeIndirect_route h with
  | there hsome => exact ⟨D, .stay hD (.refl _) rfl, hv, Finset.Subset.refl _, fun _ => hsome⟩
  | full _ halloc =>
    obtain ⟨D₁, hmakes₁, hroot₁, hheld₁, -⟩ := allocBlock_makes hs hD hI halloc
    exact ⟨D₁, hmakes₁, hroot₁ ▸ hv, hheld₁, fun hpos => absurd hpos (by decide)⟩
  | unzeroed hnone halloc _ _ _ hfail =>
    obtain ⟨hk, hio⟩ := hzero hnone
    obtain ⟨D₁, hmakes₁, -⟩ := allocBlock_makes hs hD hI halloc
    rcases hfail with hfail | hfail
    · exact absurd (hmakes₁.later.kmallocs_nil hk) hfail
    · exact absurd (hmakes₁.later.ios_nil hio) hfail
  | @zeroed n s₁ _ _ halloc hpos hlater hput =>
    obtain ⟨D₁, hmakes₁, hroot₁, hheld₁, hn⟩ := allocBlock_makes hs hD hI halloc
    obtain ⟨hmem, hfresh⟩ := hn hpos
    have hs₁ := hs.edits hmakes₁.edits
    -- the block is written, then hung from the inode
    have hmakes₂ : Makes g I D₁ s₁ s' { D₁ with fs := D₁.fs.putBlock n.toNat fun _ => 0 } :=
      .single hs₁ hmakes₁.fs hI hlater (.write _ (.inl hmem)) (by rw [hput, hmakes₁.fs])
        (fun _ _ => id) rfl
    have hmakes₃ : Makes g I { D₁ with fs := D₁.fs.putBlock n.toNat fun _ => 0 } s' s' _ :=
      .single (hs₁.edits hmakes₂.edits) hmakes₂.fs hI (.refl _)
        (.hang (k := ext4IndBlock) hmem fun _ i hi =>
          Geometry.ptrAt_zero hs₁.geometry hs₁.sane hi)
        hmakes₂.fs (fun _ _ => .inl) rfl
    have hdata := hs₁.held _ hmem
    have hlt : n.toNat < 2 ^ 32 := hdata.inRange.2.trans_le hs₁.sane.blocks_le
    refine ⟨_, hmakes₁.trans (hmakes₂.trans hmakes₃), ?_, ?_, fun _ => ?_⟩
    · refine Geometry.Rooted.set (hv.mono fun k b hb => .inl ?_) hlt (.inr ⟨rfl, rfl⟩)
      rw [hroot₁]
      exact hb
    · intro b hb
      exact Finset.mem_erase.mpr ⟨fun heq => hfresh (heq ▸ hb), hheld₁ hb⟩
    · rw [Geometry.iBlock_set_self hlt]
      exact fun hz => hdata.not_reserved (.inl hz)

theorem setFileBlock_makes {v v' : Bytes} {fb b : ℕ} {r : ℤ}
    (hv : Geometry.Rooted D.root ino v) (hb : b ∈ D.held)
    (hzero : ext4NdirBlocks ≤ fb → iBlock v ext4IndBlock = 0 → s.kmallocs = [] ∧ s.ios = [])
    (h : s.setFileBlock v fb b ino = (r, v', s')) :
    ∃ D', Makes g I D s s' D' ∧ Geometry.Rooted D'.root ino v' ∧
      (r < 0 → b ∈ D'.held) ∧ (0 ≤ r → D'.Leaf g ino b) := by
  have hdata := hs.held b hb
  have hlt : b < 2 ^ 32 := hdata.inRange.2.trans_le hs.sane.blocks_le
  have hb₀ : b ≠ 0 := fun hz => hdata.not_reserved (.inl hz)
  have hptrs : s.fs.ptrsPerBlock = g.shape.arity := by
    rw [← geometry_eq hs hD]
    rfl
  cases setFileBlock_route h with
  | direct hdir =>
    have hdepth : g.shape.depth (ino, ⟨fb, lt_iBlock hdir⟩) = 0 := by
      have hfb : fb < 12 := hdir
      show fb - 11 = 0
      omega
    have hhang : Work g ino D _ := .hang (k := ⟨fb, lt_iBlock hdir⟩) hb
      fun hpos => absurd hpos (by rw [hdepth]; exact lt_irrefl 0)
    refine ⟨_, .single hs hD hI (.refl _) hhang hD (fun _ _ => .inl) rfl, ?_,
      fun hneg => absurd hneg (by decide), fun _ => ?_⟩
    · exact Geometry.Rooted.set (hv.mono fun _ _ => .inl) hlt (.inr ⟨rfl, rfl⟩)
    · exact ⟨_, [], .root (.inr ⟨rfl, rfl⟩) hb₀, hdepth.symm⟩
  | unreached => exact ⟨D, .stay hD (.refl _) rfl, hv, fun _ => hb, fun hpos => absurd hpos (by decide)⟩
  | unmade hdir _ hmake =>
    obtain ⟨D₁, hmakes₁, hv₁, hheld₁, -⟩ := makeIndirect_makes hs hD hI hv (hzero hdir) hmake
    exact ⟨D₁, hmakes₁, hv₁, fun _ => hheld₁ hb, fun hpos => absurd hpos (by decide)⟩
  | unlinked hdir _ hmake _ hlater hfs =>
    obtain ⟨D₁, hmakes₁, hv₁, hheld₁, -⟩ := makeIndirect_makes hs hD hI hv (hzero hdir) hmake
    exact ⟨D₁, hmakes₁.trans (.stay hmakes₁.fs hlater hfs), hv₁, fun _ => hheld₁ hb,
      fun hpos => absurd hpos (by decide)⟩
  | linked hdir hi hmake hret hlater hput =>
    obtain ⟨D₁, hmakes₁, hv₁, hheld₁, hind⟩ := makeIndirect_makes hs hD hI hv (hzero hdir) hmake
    have hs₁ := hs.edits hmakes₁.edits
    have hind := hind hret
    rw [hptrs] at hi
    rw [← hmakes₁.fs] at hput
    have hlink := Work.link (hv₁ _ hind) hind hi (hheld₁ hb)
    refine ⟨_, hmakes₁.trans (.single hs₁ hmakes₁.fs hI hlater hlink hput.symm (fun _ _ => id) rfl),
      hv₁, fun hneg => absurd hneg (by decide), fun _ => ?_⟩
    have hword := Geometry.ptrAt_setPtr (c := iBlock v' ext4IndBlock) hs₁.geometry hs₁.sane hi hlt
    have hchild := Refs.child (.root (hv₁ _ hind) hind) Nat.zero_lt_one hi
      (show Geometry.word _ _ _ ≠ 0 from hword ▸ hb₀)
    refine ⟨ext4IndBlock, [fb - ext4NdirBlocks], ?_, rfl⟩
    rw [show Geometry.word _ _ _ = b from hword] at hchild
    exact hchild

end

end GcAos.Fs
