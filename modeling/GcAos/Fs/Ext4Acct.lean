import GcAos.Fs.Ext4Count

/-! Free-space accounting over whole runs of the calls of the VFS layer. -/

namespace GcAos.Fs
open Lib Ext4 Draft

inductive Ext4VfsCall
  | create (parentIno : ℕ) (name : Bytes) (mode : ℕ)
  | mkdir (parentIno : ℕ) (name : Bytes) (mode : ℕ)
  | write (ino : ℕ) (buf : Bytes) (offset len : ℕ)
  | truncate (ino size : ℕ)

def Ext4.vfsCall (s : Ext4) : Ext4VfsCall → ℤ × Ext4
  | .create parentIno name mode => s.vfsCreate parentIno name mode
  | .mkdir parentIno name mode => s.vfsMkdir parentIno name mode
  | .write ino buf offset len => s.vfsWrite ino buf offset len
  | .truncate ino size => s.vfsTruncate ino size

structure Ext4Fs.CountsAgree (fs : Ext4Fs) : Prop where
  group : ∀ k group, group < fs.groupCount → fs.freeCount k group = fs.clearBits k group
  super : ∀ k : BitmapKind, fs.super k.superFree =
    (∑ group ∈ Finset.range fs.groupCount, fs.freeCount k group) % 2 ^ 32

section
variable {g : Geometry} {L : Set ℕ} {fs : Ext4Fs} {ino : ℕ}

theorem closed_refs_mem {k : ℕ × Fin 15} {p : List ℕ} {b : ℕ}
    (h : (closed g L fs).Refs g k p b) : k.1 ∈ L := by
  induction h with
  | root hr _ => exact hr.1
  | child _ _ _ _ ih => exact ih

theorem closed_refs_mono {L' : Set ℕ} (hsub : L' ⊆ L) {k : ℕ × Fin 15} {p : List ℕ} {b : ℕ}
    (h : (closed g L' fs).Refs g k p b) : (closed g L fs).Refs g k p b :=
  h.mono (fun _ _ hr _ => ⟨hsub hr.1, hr.2⟩) fun _ _ _ _ _ _ _ => rfl

theorem sound_release {S : Finset ℕ} (h : Sound g L (closed g L fs))
    (hS : ∀ b ∈ S, ∃ k p, (closed g L fs).Refs g (ino, k) p b) :
    Sound g (L \ {ino}) { closed g (L \ {ino}) fs with held := S } := by
  have hsub : L \ {ino} ⊆ L := Set.sdiff_subset
  exact
    { geometry := h.geometry
      sane := h.sane
      valid := fun i hi => h.valid i (hsub hi)
      guarded := h.guarded
      owned := h.owned.mono fun _ _ _ hb => closed_refs_mono hsub hb
      data := fun k p b hb => h.data k p b (closed_refs_mono hsub hb)
      held := by
        intro b hb
        obtain ⟨k, p, hr⟩ := hS b hb
        exact h.data _ _ _ hr
      fresh := by
        intro b hb k p hr
        obtain ⟨k', p', hr'⟩ := hS b hb
        obtain ⟨rfl, -⟩ := h.owned (closed_refs_mono hsub hr) hr'
        exact (closed_refs_mem hr).2 rfl
      table := fun i hi k _ => ⟨hi, rfl⟩
      inodes := by simp [closed] }

end

/-- Freeing file blocks changes bitmaps only, so that the block map stays readable. -/
theorem releaseBlocks_edits {g : Geometry} {I L : Set ℕ} {D : Draft} {s : Ext4} {v : Bytes}
    {bs : List ℕ} {ino : ℕ} (device₀ : ℕ → Bytes) (hs : Sound g L D) (hD : D.fs = s.fs)
    (hI : ino ∈ I) (hnodup : bs.Nodup)
    (hmap : ∀ device, (∀ c, ¬g.Reserved c → device c = device₀ c) →
      ∀ b, g.fileBlock device v b = g.fileBlock device₀ v b)
    (hdev : ∀ c, ¬g.Reserved c → s.fs.device c = device₀ c)
    (hheld : ∀ b ∈ bs, g.fileBlock device₀ v b ≠ 0 → g.fileBlock device₀ v b ∈ D.held)
    (hinj : ∀ b ∈ bs, ∀ b' ∈ bs, g.fileBlock device₀ v b ≠ 0 →
      g.fileBlock device₀ v b = g.fileBlock device₀ v b' → b = b') :
    Later s (releaseBlocks v bs s) ∧ ∃ D', DraftEdits g I D D' ∧ D'.fs = (releaseBlocks v bs s).fs := by
  induction bs generalizing D s with
  | nil => exact ⟨.refl _, D, .refl, hD⟩
  | cons b bs ih =>
    obtain ⟨hb, hnodup⟩ := List.nodup_cons.mp hnodup
    unfold releaseBlocks
    rcases hget : s.getFileBlock v b with ⟨c, s₁⟩
    obtain ⟨hfs₁, hlater₁, hc, -⟩ := getFileBlock_eq (geometry_eq hs hD) hget
    rw [hmap _ hdev] at hc
    dsimp only
    have hD₁ := hD.trans hfs₁.symm
    have hinj' : ∀ b ∈ bs, ∀ b' ∈ bs, g.fileBlock device₀ v b ≠ 0 →
        g.fileBlock device₀ v b = g.fileBlock device₀ v b' → b = b' := fun b hb b' hb' =>
      hinj b (List.mem_cons_of_mem _ hb) b' (List.mem_cons_of_mem _ hb')
    split
    · next hne =>
      have hc := hc.resolve_left hne
      have hmem : c ∈ D.held := by
        rw [hc] at hne ⊢
        exact hheld b (List.mem_cons_self ..) hne
      have hrange := (hs.held c hmem).inRange
      rcases hfree : s₁.freeBlock c with ⟨ret, s₂⟩
      obtain ⟨D₂, hmakes₂, -, herase⟩ := freeBlock_makes hs hD₁ hI hmem hfree
      have hdev₂ : ∀ c, ¬g.Reserved c → s₂.fs.device c = device₀ c := by
        intro x hx
        rcases (freeBlock_eq (geometry_eq hs hD₁) hs.sane hrange hfree).2 with hsame | hdrop
        · rw [hsame, hfs₁]
          exact hdev x hx
        · have hper : g.indexOf c < BitmapKind.block.perGroup s₁.fs := by
            rw [show BitmapKind.block.perGroup s₁.fs = g.blocksPerGroup from
              congrArg Geometry.blocksPerGroup (geometry_eq hs hD₁)]
            exact hs.sane.indexOf_lt
          rw [hdrop, Ext4Fs.device_dropBit (geometry_eq hs hD₁) hs.sane hper,
            Function.update_of_ne, hfs₁]
          · exact hdev x hx
          · rintro rfl
            exact hx (Geometry.reserved_place (Ext4Fs.has_bitmap (hs.sane.groupOf_lt hrange)))
      have hheld₂ : ∀ b' ∈ bs, g.fileBlock device₀ v b' ≠ 0 → g.fileBlock device₀ v b' ∈ D₂.held := by
        intro b' hb' hne'
        apply herase
        refine Finset.mem_erase.mpr ⟨fun heq => ?_, hheld b' (List.mem_cons_of_mem _ hb') hne'⟩
        have hsame := hinj b' (List.mem_cons_of_mem _ hb') b (List.mem_cons_self ..) hne'
          (heq.trans hc)
        exact hb (hsame ▸ hb')
      obtain ⟨hlater, D', hedits, hfs'⟩ := ih (hs.edits hmakes₂.edits) hmakes₂.fs hnodup hdev₂
        hheld₂ hinj'
      exact ⟨hlater₁.trans (hmakes₂.later.trans hlater), D',
        Relation.ReflTransGen.trans hmakes₂.edits hedits, hfs'⟩
    · obtain ⟨hlater, D', hedits, hfs'⟩ := ih hs hD₁ hnodup (by rw [hfs₁]; exact hdev)
        (fun b' hb' => hheld b' (List.mem_cons_of_mem _ hb')) hinj'
      exact ⟨hlater₁.trans hlater, D', hedits, hfs'⟩

namespace Ext4

def released (s : Ext4) (ino size : ℕ) : Finset ℕ :=
  if size < s.sizeOf ino then
    ((Finset.Ico (s.blocksIn size) (s.blocksIn (s.sizeOf ino))).image
      (s.fs.geometry.fileBlock s.fs.device (s.inodeOf ino))).erase 0
  else ∅

def HasRoom (s : Ext4) (ino size : ℕ) : Prop :=
  ∀ group < s.fs.groupCount, s.fs.clearBits .block group +
    ((s.released ino size).filter fun b => s.fs.geometry.groupOf b = group).card < 2 ^ 16

theorem mem_released {s : Ext4} {ino size b : ℕ} (hlt : size < s.sizeOf ino)
    (hlo : s.blocksIn size ≤ b) (hhi : b < s.blocksIn (s.sizeOf ino))
    (hne : s.fs.geometry.fileBlock s.fs.device (s.inodeOf ino) b ≠ 0) :
    s.fs.geometry.fileBlock s.fs.device (s.inodeOf ino) b ∈ s.released ino size := by
  rw [released, if_pos hlt]
  exact Finset.mem_erase.mpr ⟨hne, Finset.mem_image_of_mem _ (Finset.mem_Ico.mpr ⟨hlo, hhi⟩)⟩

theorem exists_of_mem_released {s : Ext4} {ino size c : ℕ} (h : c ∈ s.released ino size) :
    c ≠ 0 ∧ ∃ b, s.fs.geometry.fileBlock s.fs.device (s.inodeOf ino) b = c := by
  unfold released at h
  split at h
  · obtain ⟨hne, hmem⟩ := Finset.mem_erase.mp h
    obtain ⟨b, -, hb⟩ := Finset.mem_image.mp hmem
    exact ⟨hne, b, hb⟩
  · exact absurd h (Finset.notMem_empty c)

section
variable {s s' : Ext4} {L : Set ℕ} {ino size : ℕ} {r : ℤ}
  (hs : Sound s.fs.geometry L (closed s.fs.geometry L s.fs))
include hs

theorem refs_of_fileBlock (hino : ino ∈ L) {b : ℕ}
    (hne : s.fs.geometry.fileBlock s.fs.device (s.inodeOf ino) b ≠ 0) :
    (closed s.fs.geometry L s.fs).Refs s.fs.geometry (ino, (s.fs.geometry.fileAddr b).1)
      (s.fs.geometry.fileAddr b).2 (s.fs.geometry.fileBlock s.fs.device (s.inodeOf ino) b) :=
  Geometry.refs_fileBlock (hs.table ino hino) hs.sane hne

theorem refs_of_mem_released (hino : ino ∈ L) (c : ℕ) (hc : c ∈ s.released ino size) :
    ∃ k p, (closed s.fs.geometry L s.fs).Refs s.fs.geometry (ino, k) p c := by
  obtain ⟨hne, b, rfl⟩ := exists_of_mem_released hc
  exact ⟨_, _, refs_of_fileBlock hs hino hne⟩

theorem releaseBlocks_released (hino : ino ∈ L) (hlt : size < s.sizeOf ino) {s₁ : Ext4}
    (hfs : s₁.fs = s.fs) :
    let s₂ := releaseBlocks (s.inodeOf ino) (List.range' (s.blocksIn size)
      (s.blocksIn (s.sizeOf ino) - s.blocksIn size)) s₁
    Later s₁ s₂ ∧ ∃ D', DraftEdits s.fs.geometry {ino}
      { closed s.fs.geometry (L \ {ino}) s.fs with held := s.released ino size } D' ∧
      D'.fs = s₂.fs := by
  intro s₂
  have hmem {b : ℕ} (hb : b ∈ List.range' (s.blocksIn size)
      (s.blocksIn (s.sizeOf ino) - s.blocksIn size)) :
      s.blocksIn size ≤ b ∧ b < s.blocksIn (s.sizeOf ino) := by
    obtain ⟨hlo, hhi⟩ := List.mem_range'_1.mp hb
    omega
  refine releaseBlocks_edits s.fs.device (sound_release hs (refs_of_mem_released hs hino)) hfs.symm
    (Set.mem_singleton ino) List.nodup_range' ?_ (fun c _ => by rw [hfs]) ?_ ?_
  · intro device hdevice b
    apply Geometry.fileBlock_congr (hs.table ino hino)
    intro k p c hc _
    exact hdevice c (hs.data _ _ _ hc).not_reserved
  · intro b hb hne
    obtain ⟨hlo, hhi⟩ := hmem hb
    exact mem_released hlt hlo hhi hne
  · intro b hb b' hb' hne heq
    have hr := refs_of_fileBlock hs hino hne
    have hr' := refs_of_fileBlock hs hino (heq ▸ hne)
    rw [← heq] at hr'
    obtain ⟨hk, hp⟩ := hs.owned hr hr'
    exact Geometry.fileAddr_injective (Prod.ext (Prod.mk.inj hk).2 hp)

theorem vfsTruncate_counted (hcount : Counted s.fs.geometry (closed s.fs.geometry L s.fs))
    (hino : s.fs.geometry.ValidIno ino → ino ∈ L)
    (hroom : s.fs.geometry.ValidIno ino → s.HasRoom ino size)
    (h : s.vfsTruncate ino size = (r, s')) :
    Later s s' ∧ Sound s.fs.geometry (L \ {ino}) (closed s.fs.geometry (L \ {ino}) s'.fs) ∧
      Counted s.fs.geometry (closed s.fs.geometry (L \ {ino}) s'.fs) := by
  have hsub : L \ {ino} ⊆ L := Set.sdiff_subset
  unfold vfsTruncate at h
  rcases hread : s.readInode ino with ⟨v?, s₁⟩
  obtain ⟨hfs₁, hlater₁, hsome, -⟩ := readInode_eq rfl hs.sane hread
  rw [hread] at h
  dsimp only at h
  split at h
  · obtain ⟨rfl, rfl⟩ := Prod.mk.inj h
    rw [hfs₁]
    exact ⟨hlater₁, (hs.anti hsub).close, hcount.close hs.geometry⟩
  · next v =>
    obtain ⟨hvalid, rfl⟩ := hsome v rfl
    have hblocks (n : ℕ) : s₁.blocksIn n = s.blocksIn n := by rw [blocksIn, blocksIn, hfs₁]
    rw [hblocks, hblocks] at h
    generalize hrelease : (if size < ext4Inode.get (s.fs.geometry.inode s.fs.device ino) 0 .sizeLo then
      releaseBlocks (s.fs.geometry.inode s.fs.device ino) (List.range' (s.blocksIn size)
        (s.blocksIn (ext4Inode.get (s.fs.geometry.inode s.fs.device ino) 0 .sizeLo) -
          s.blocksIn size)) s₁
      else s₁) = s₂ at h
    let D₀ : Draft :=
      { closed s.fs.geometry (L \ {ino}) s.fs with held := s.released ino size }
    have hs₀ : Sound s.fs.geometry (L \ {ino}) D₀ :=
      sound_release hs (refs_of_mem_released hs (hino hvalid))
    have hcount₀ : Counted s.fs.geometry D₀ := by
      refine ⟨hcount.count, hcount.total, fun k group hgroup => ?_⟩
      cases k with
      | block => exact hroom hvalid group hgroup
      | inode => exact hcount.room .inode group hgroup
    have hloop : Later s₁ s₂ ∧ ∃ D', DraftEdits s.fs.geometry {ino} D₀ D' ∧ D'.fs = s₂.fs := by
      rw [← hrelease]
      split
      · next hlt => exact releaseBlocks_released hs (hino hvalid) hlt hfs₁
      · exact ⟨.refl _, D₀, .refl, hfs₁.symm⟩
    obtain ⟨hlater₂, D₂, hedits, hfs₂⟩ := hloop
    have hs₂ := hs₀.edits hedits
    have hcount₂ := hcount₀.edits hs₀ hedits
    obtain ⟨hlater₃, ⟨-, hsame, -⟩ | ⟨-, -, hput⟩⟩ := writeInode_eq (geometry_eq hs₂ hfs₂) h
    · rw [hsame, ← hfs₂]
      exact ⟨hlater₁.trans (hlater₂.trans hlater₃), hs₂.close, hcount₂.close hs₂.geometry⟩
    · rw [hput, ← hfs₂]
      refine ⟨hlater₁.trans (hlater₂.trans hlater₃), ?_, ?_⟩
      · exact (hs₂.putInode hvalid fun hmem => absurd rfl hmem.2).close
      · exact (hcount₂.putInode hs₂.sane hs₂.geometry hvalid).close hs₂.geometry

end

/-- The calls that keep the counters, when the pointers of the inodes in `L` are up to date. -/
def Countable (s : Ext4) (L : Set ℕ) : Ext4VfsCall → Prop
  | .create parentIno _ _ | .mkdir parentIno _ _ => (s.fs.geometry.ValidIno parentIno → parentIno ∈ L) ∧
    s.ZeroesIndirect parentIno (s.blocksIn (s.sizeOf parentIno) + 1)
  | .write ino _ offset len => (s.fs.geometry.ValidIno ino → ino ∈ L) ∧
    s.ZeroesIndirect ino (s.blocksIn (offset + len))
  | .truncate ino size => (s.fs.geometry.ValidIno ino → ino ∈ L) ∧
    (s.fs.geometry.ValidIno ino → s.HasRoom ino size)

/-- The inodes with up-to-date pointers after a call: a new file is one of them, and a file that
lost a block is one no longer. -/
def current (s : Ext4) (L : Set ℕ) : Ext4VfsCall → Set ℕ
  | .create parentIno name mode => L ∪ { ino | (ino : ℤ) = (s.vfsCreate parentIno name mode).1 }
  | .mkdir parentIno name mode => L ∪ { ino | (ino : ℤ) = (s.vfsMkdir parentIno name mode).1 }
  | .write .. => L
  | .truncate ino size => if s.released ino size = ∅ then L else L \ {ino}

structure Balanced (s : Ext4) (L : Set ℕ) : Prop where
  sound : Sound s.fs.geometry L (closed s.fs.geometry L s.fs)
  counted : Counted s.fs.geometry (closed s.fs.geometry L s.fs)
  ios : s.ios = []

namespace Balanced

variable {s s' : Ext4} {L L' : Set ℕ}

theorem countsAgree (h : s.Balanced L) : s.fs.CountsAgree := ⟨h.counted.count, h.counted.total⟩

theorem of_edits {I N : Set ℕ} {D' : Draft} (h : s.Balanced L)
    (hedits : DraftEdits s.fs.geometry I (closed s.fs.geometry L s.fs) D') (hfs : D'.fs = s'.fs)
    (hlater : Later s s') (hs' : Sound s.fs.geometry N D') (hL : L' ⊆ N) : s'.Balanced L' := by
  have hgeo : s'.fs.geometry = s.fs.geometry := hfs ▸ hs'.geometry
  have hcount := h.counted.edits h.sound hedits
  refine ⟨?_, ?_, hlater.ios_nil h.ios⟩
  · rw [hgeo, ← hfs]
    exact (hs'.anti hL).close
  · rw [hgeo, ← hfs]
    exact hcount.close hs'.geometry

theorem createFile {parentIno mode : ℕ} {name : Bytes} (h : s.Balanced L)
    (hp : s.fs.geometry.ValidIno parentIno → parentIno ∈ L)
    (hzero : s.ZeroesIndirect parentIno (s.blocksIn (s.sizeOf parentIno) + 1)) :
    (s.createFile parentIno name mode).2.Balanced
      (L ∪ { ino | (ino : ℤ) = (s.createFile parentIno name mode).1 }) := by
  rcases hcall : s.createFile parentIno name mode with ⟨r, s'⟩
  obtain ⟨hlater, N, D', hedits, hfs, hs', hr⟩ :=
    createFile_edits h.sound rfl hp (fun _ => hzero.canZero h.ios) hcall
  refine h.of_edits hedits hfs hlater hs' ?_
  rintro ino (hino | hino)
  · exact .inr hino
  · have hino : (ino : ℤ) = r := hino
    have hmem := hr (by omega)
    rw [← hino, Int.toNat_natCast] at hmem
    exact .inl hmem

theorem truncate {ino size : ℕ} (h : s.Balanced L) (hc : s.Countable L (.truncate ino size)) :
    (s.vfsTruncate ino size).2.Balanced (s.current L (.truncate ino size)) := by
  obtain ⟨hino, hroom⟩ := hc
  rcases hcall : s.vfsTruncate ino size with ⟨r, s'⟩
  show s'.Balanced (if s.released ino size = ∅ then L else L \ {ino})
  split
  · next hnone =>
    obtain ⟨hlater, D', hedits, hfs⟩ := vfsTruncate_edits h.sound rfl (Set.mem_singleton ino) hino
      (fun hlt b hlo hhi => by
        by_contra hne
        have hmem := mem_released hlt hlo hhi hne
        rw [hnone] at hmem
        exact Finset.notMem_empty _ hmem) hcall
    exact h.of_edits hedits hfs hlater (h.sound.edits hedits) subset_rfl
  · obtain ⟨hlater, hs', hcount'⟩ := vfsTruncate_counted h.sound h.counted hino hroom hcall
    have hgeo : s'.fs.geometry = s.fs.geometry := hs'.geometry
    exact ⟨hgeo ▸ hs', hgeo ▸ hcount', hlater.ios_nil h.ios⟩

theorem vfsCall {c : Ext4VfsCall} (h : s.Balanced L) (hc : s.Countable L c) :
    (s.vfsCall c).2.Balanced (s.current L c) := by
  cases c with
  | create parentIno name mode => exact h.createFile hc.1 hc.2
  | mkdir parentIno name mode => exact h.createFile hc.1 hc.2
  | write ino buf offset len =>
    obtain ⟨hino, hzero⟩ := hc
    rcases hcall : s.writeFile ino buf offset len with ⟨r, s'⟩
    obtain ⟨hlater, D', hedits, hfs⟩ := writeFile_edits h.sound rfl (Set.mem_singleton ino) hino
      (fun _ => hzero.canZero_pred h.ios) (fun w hw => fileBlock_le h.sound.sane hw) hcall
    rw [Ext4.vfsCall, vfsWrite, hcall]
    exact h.of_edits hedits hfs hlater (h.sound.edits hedits) subset_rfl
  | truncate ino size => exact h.truncate hc

end Balanced

/-- A call together with the inodes whose pointers are up to date. -/
def CountedStep (x : Ext4 × Set ℕ) (c : Ext4VfsCall) (y : Ext4 × Set ℕ) : Prop :=
  x.1.Countable x.2 c ∧ y = ((x.1.vfsCall c).2, x.1.current x.2 c)

/-- Along every run in which no file that lost a block is used again, the free counts of the groups
and of the superblock agree with the bitmaps. -/
theorem free_counts_agree {s s' : Ext4} {L : Set ℕ} {cs : List Ext4VfsCall} (hs : s.fs.Consistent)
    (hio : s.ios = []) (hcounts : s.fs.CountsAgree)
    (hroom : ∀ k group, group < s.fs.groupCount → s.fs.clearBits k group < 2 ^ 16)
    (hrun : Exec CountedStep (s, s.fs.live) cs (s', L)) : s'.fs.CountsAgree := by
  have hstart : s.Balanced s.fs.live := by
    refine ⟨hs, ⟨hcounts.group, hcounts.super, fun k group hgroup => ?_⟩, hio⟩
    have hheld : Draft.heldIn s.fs.geometry (closed s.fs.geometry s.fs.live s.fs) k group = 0 := by
      cases k <;> rfl
    rw [hheld]
    exact hroom k group hgroup
  have hend : Balanced (s', L).1 (s', L).2 := by
    refine hrun.invariant (I := fun x => x.1.Balanced x.2) ?_ hstart
    rintro x c _ hx ⟨hc, rfl⟩
    exact hx.vfsCall hc
  exact hend.countsAgree

theorem sample_countsAgree : sample.fs.CountsAgree := by
  refine ⟨fun k group hgroup => ?_, fun k => ?_⟩
  · obtain rfl : group = 0 := Nat.lt_one_iff.mp hgroup
    cases k <;> decide +kernel
  · cases k <;> decide +kernel

theorem free_counts_agree_three_calls :
    ∃ s' L, Exec CountedStep (sample, sample.fs.live)
      [.create 2 nameA 0x8000, .write 3 (fun _ => 1) 0 1, .truncate 3 0] (s', L) ∧
      s'.fs.CountsAgree := by
  obtain ⟨s₁, hs₁⟩ : ∃ s₁, s₁ = (sample.vfsCall (.create 2 nameA 0x8000)).2 := ⟨_, rfl⟩
  obtain ⟨s₂, hs₂⟩ : ∃ s₂, s₂ = (s₁.vfsCall (.write 3 (fun _ => 1) 0 1)).2 := ⟨_, rfl⟩
  have hcreate : sample.Countable sample.fs.live (.create 2 nameA 0x8000) :=
    ⟨fun _ => by decide +kernel, .inl rfl⟩
  have hnew : 3 ∈ sample.current sample.fs.live (.create 2 nameA 0x8000) :=
    .inr (show ((3 : ℕ) : ℤ) = (sample.vfsCreate 2 nameA 0x8000).1 by decide +kernel)
  have hwrite : s₁.Countable (sample.current sample.fs.live (.create 2 nameA 0x8000))
      (.write 3 (fun _ => 1) 0 1) := by
    refine ⟨fun _ => hnew, .inl ?_⟩
    rw [hs₁]
    decide +kernel
  have htruncate : s₂.Countable
      (s₁.current (sample.current sample.fs.live (.create 2 nameA 0x8000)) (.write 3 (fun _ => 1) 0 1))
      (.truncate 3 0) := by
    have hroom : s₂.fs.groupCount = 1 ∧ s₂.fs.clearBits .block 0 +
        ((s₂.released 3 0).filter fun b => s₂.fs.geometry.groupOf b = 0).card < 2 ^ 16 := by
      rw [hs₂, hs₁]
      decide +kernel
    refine ⟨fun _ => hnew, fun _ group hgroup => ?_⟩
    obtain rfl : group = 0 := Nat.lt_one_iff.mp (hroom.1 ▸ hgroup)
    exact hroom.2
  have hrun : Exec CountedStep (sample, sample.fs.live)
      [.create 2 nameA 0x8000, .write 3 (fun _ => 1) 0 1, .truncate 3 0] (_, _) :=
    .cons ⟨hcreate, by rw [← hs₁]⟩
      (.cons ⟨hwrite, by rw [← hs₂]⟩ (.cons ⟨htruncate, rfl⟩ (.nil _)))
  refine ⟨_, _, hrun, free_counts_agree sampleFs_consistent rfl sample_countsAgree ?_ hrun⟩
  intro k group hgroup
  obtain rfl : group = 0 := Nat.lt_one_iff.mp hgroup
  cases k <;> decide +kernel

/-- A file of one block is cut to nothing, grown to one byte and cut again: its block is given back
twice and counted twice. -/
theorem truncate_counts_twice :
    sample.fs.Consistent ∧ sample.fs.CountsAgree ∧ sample.ios = [] ∧ sample.kmallocs = [] ∧
      ∃ s', Exec (fun s c s' => s' = (s.vfsCall c).2) sample
        [.create 2 nameA 0x8000, .write 3 (fun _ => 1) 0 1, .truncate 3 0, .truncate 3 1,
          .truncate 3 0] s' ∧ ¬s'.fs.CountsAgree := by
  refine ⟨sampleFs_consistent, sample_countsAgree, rfl, rfl, _,
    .cons rfl (.cons rfl (.cons rfl (.cons rfl (.cons rfl (.nil _))))), ?_⟩
  generalize hs' : (vfsCall _ _).2 = s'
  have hwrong : 0 < s'.fs.groupCount ∧ s'.fs.freeCount .block 0 ≠ s'.fs.clearBits .block 0 := by
    rw [← hs']
    decide +kernel
  exact fun hcounts => hwrong.2 (hcounts.group .block 0 hwrong.1)

end Ext4

end GcAos.Fs
