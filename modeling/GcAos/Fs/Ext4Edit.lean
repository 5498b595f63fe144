import GcAos.Fs.Ext4Map
import Mathlib.Data.Finset.Basic
import Mathlib.Logic.Relation

/-! The changes the ext4 operations are made of, and the ownership invariant each one keeps. An
operation works on inodes in memory and writes them back at its end, so the invariant counts the
pointers of those inodes too, and the blocks that are allocated but not linked yet. -/

namespace GcAos.Fs
open Lib

/-- A file system in the middle of an operation. -/
structure Draft where
  fs : Ext4Fs
  -- the block pointers of the inodes on the device and in memory
  root : ℕ × Fin 15 → ℕ → Prop
  -- blocks and inode bits allocated by the operation and not linked yet
  held : Finset ℕ
  inodes : Finset (ℕ × ℕ)

/-- A block for file data or pointers: in the groups, marked used, no metadata. -/
structure Geometry.Data (g : Geometry) (device : ℕ → Bytes) (b : ℕ) : Prop where
  inRange : g.InRange b
  used : g.used device b = true
  not_reserved : ¬g.Reserved b

def Draft.Refs (g : Geometry) (D : Draft) (k : ℕ × Fin 15) (p : List ℕ) (b : ℕ) : Prop :=
  Lib.Refs g.shape D.root (Geometry.word D.fs.device) k p b

/-- No block has two addresses, every block that has one is a data block, and the held blocks have
none. `L` are the inodes whose pointers count. -/
structure Draft.Sound (g : Geometry) (L : Set ℕ) (D : Draft) : Prop where
  geometry : D.fs.geometry = g
  sane : g.Sane
  valid : ∀ ino ∈ L, g.ValidIno ino
  guarded : ∀ b, g.Reserved b → g.InRange b → g.used D.fs.device b = true
  owned : Owned g.shape D.root (Geometry.word D.fs.device)
  data : ∀ k p b, D.Refs g k p b → g.Data D.fs.device b
  held : ∀ b ∈ D.held, g.Data D.fs.device b
  fresh : ∀ b ∈ D.held, ∀ k p, ¬D.Refs g k p b
  table : ∀ ino ∈ L, Geometry.Rooted D.root ino (g.inode D.fs.device ino)
  inodes : ∀ x ∈ D.inodes, x.1 < g.groupCount ∧ x.2 < g.inodesPerGroup ∧
    (D.fs.device (g.inodeBitmap x.1)).bit x.2 = true

/-- One change to the blocks, made for inode `ino`. -/
inductive Draft.Work (g : Geometry) (ino : ℕ) : Draft → Draft → Prop
  | take {D : Draft} {group index : ℕ} : group < g.groupCount → index < g.blocksPerGroup →
      (D.fs.device (g.blockBitmap group)).bit index = false →
      Work g ino D { D with
        fs := D.fs.takeBit .block group index
        held := insert (g.blockAt group index) D.held }
  | drop {D : Draft} {b : ℕ} : b ∈ D.held →
      Work g ino D { D with
        fs := D.fs.dropBit .block (g.groupOf b) (g.indexOf b)
        held := D.held.erase b }
  | takeInode {D : Draft} {group index : ℕ} : group < g.groupCount → index < g.inodesPerGroup →
      (D.fs.device (g.inodeBitmap group)).bit index = false →
      Work g ino D { D with
        fs := D.fs.takeBit .inode group index
        inodes := insert (group, index) D.inodes }
  | dropInode {D : Draft} {x : ℕ × ℕ} : x ∈ D.inodes →
      Work g ino D { D with fs := D.fs.dropBit .inode x.1 x.2, inodes := D.inodes.erase x }
  -- file data
  | write {D : Draft} {b : ℕ} (buf : Bytes) :
      (b ∈ D.held ∨ ∃ k p, D.Refs g (ino, k) p b ∧ p.length = g.shape.depth (ino, k)) →
      Work g ino D { D with fs := D.fs.putBlock b buf }
  -- a pointer in the single indirect block
  | link {D : Draft} {c i b : ℕ} : D.root (ino, ext4IndBlock) c → c ≠ 0 → i < g.shape.arity →
      b ∈ D.held →
      Work g ino D { D with
        fs := D.fs.putBlock c ((D.fs.device c).store (4 * i) 4 b)
        held := D.held.erase b }
  -- a pointer in the inode in memory
  | hang {D : Draft} {k : Fin 15} {b : ℕ} : b ∈ D.held →
      (0 < g.shape.depth (ino, k) → ∀ i < g.shape.arity, ptrAt (D.fs.device b) i = 0) →
      Work g ino D { D with
        root := fun k' b' => D.root k' b' ∨ k' = (ino, k) ∧ b' = b
        held := D.held.erase b }

/-- A change to the blocks or to the inode `ino` of the table. -/
inductive DraftEdit (g : Geometry) (ino : ℕ) : Draft → Draft → Prop
  | work {D D' : Draft} : Draft.Work g ino D D' → DraftEdit g ino D D'
  | putInode {D : Draft} {v : Bytes} : g.ValidIno ino → Geometry.Rooted D.root ino v →
      DraftEdit g ino D { D with fs := D.fs.putInode ino v }

/-- The changes made for the inodes in `I`, one after the other. -/
def DraftEdits (g : Geometry) (I : Set ℕ) : Draft → Draft → Prop :=
  Relation.ReflTransGen fun D D' => ∃ ino ∈ I, DraftEdit g ino D D'

namespace Draft.Sound

variable {g : Geometry} {L : Set ℕ} {D : Draft} {ino : ℕ}

theorem change {D' : Draft} (h : Sound g L D) (hgeo : D'.fs.geometry = g)
    (hroot : ∀ k b, D'.root k b → b ≠ 0 → D.root k b)
    (hword : ∀ k p b, D.Refs g k p b → p.length < g.shape.depth k → ∀ i < g.shape.arity,
      Geometry.word D'.fs.device b i = Geometry.word D.fs.device b i)
    (hused : ∀ b, g.InRange b → (g.Reserved b ∨ ∃ k p, D.Refs g k p b) →
      g.used D.fs.device b = true → g.used D'.fs.device b = true)
    (hheld : ∀ b ∈ D'.held, g.Data D'.fs.device b ∧ ∀ k p, ¬D.Refs g k p b)
    (htable : ∀ ino ∈ L, Geometry.Rooted D'.root ino (g.inode D'.fs.device ino))
    (hinodes : ∀ x ∈ D'.inodes, x.1 < g.groupCount ∧ x.2 < g.inodesPerGroup ∧
      (D'.fs.device (g.inodeBitmap x.1)).bit x.2 = true) : Sound g L D' := by
  have hsub : ∀ k p b, D'.Refs g k p b → D.Refs g k p b := fun k p b hb => hb.mono hroot hword
  exact
    { geometry := hgeo
      sane := h.sane
      valid := h.valid
      guarded := fun b hb hr => hused b hr (.inl hb) (h.guarded b hb hr)
      owned := h.owned.mono hsub
      data := fun k p b hb => by
        have hdata := h.data k p b (hsub k p b hb)
        exact ⟨hdata.inRange, hused b hdata.inRange (.inr ⟨k, p, hsub k p b hb⟩) hdata.used,
          hdata.not_reserved⟩
      held := fun b hb => (hheld b hb).1
      fresh := fun b hb k p hr => (hheld b hb).2 k p (hsub k p b hr)
      table := htable
      inodes := hinodes }

theorem ne_place (h : Sound g L D) {k : ℕ × Fin 15} {p : List ℕ} {b : ℕ} {a : Area}
    (hb : D.Refs g k p b) (ha : g.Has a) : b ≠ g.place a := by
  rintro rfl
  exact (h.data _ _ _ hb).not_reserved (Geometry.reserved_place ha)

theorem changeBit {D' : Draft} {group index : ℕ} {blk : Bytes} (h : Sound g L D)
    (hgroup : group < g.groupCount) (hindex : index < g.blocksPerGroup)
    (hgeo : D'.fs.geometry = g) (hroot : D'.root = D.root) (hinodes : D'.inodes = D.inodes)
    (hdev : D'.fs.device = Function.update D.fs.device (g.place (.blockBitmap group)) blk)
    (hbit : ∀ j, j ≠ index → blk.bit j = (D.fs.device (g.blockBitmap group)).bit j)
    (hset : (g.Reserved (g.blockAt group index) ∨ ∃ k p, D.Refs g k p (g.blockAt group index)) →
      blk.bit index = true)
    (hheld : ∀ b ∈ D'.held, b ∈ D.held ∧ b ≠ g.blockAt group index ∨
      b = g.blockAt group index ∧ blk.bit index = true ∧ ¬g.Reserved b ∧
        ∀ k p, ¬D.Refs g k p b) : Sound g L D' := by
  have hg := h.sane
  have harea : g.Has (.blockBitmap group) := hgroup
  have hused : ∀ b, g.InRange b → g.used D'.fs.device b =
      if b = g.blockAt group index then blk.bit index else g.used D.fs.device b := by
    intro b hb
    rw [hdev]
    exact hg.used_update_bitmap hgroup hindex hb hbit
  refine h.change hgeo (fun k b hb _ => hroot ▸ hb) ?_ ?_ ?_ ?_ ?_
  · intro k p b hb _ i _
    rw [Geometry.word, hdev, Function.update_of_ne (h.ne_place hb harea), Geometry.word]
  · intro b hb hwhy hb'
    rw [hused b hb]
    split
    · next heq =>
      subst heq
      exact hset hwhy
    · exact hb'
  · intro b hb
    rcases hheld b hb with ⟨hold, hne⟩ | ⟨rfl, hbit, hres, hfresh⟩
    · have hdata := h.held b hold
      refine ⟨⟨hdata.inRange, ?_, hdata.not_reserved⟩, h.fresh b hold⟩
      rw [hused b hdata.inRange, if_neg hne]
      exact hdata.used
    · have hrange := Geometry.inRange_blockAt hgroup hindex
      refine ⟨⟨hrange, ?_, hres⟩, hfresh⟩
      rw [hused _ hrange, if_pos rfl]
      exact hbit
  · intro ino hino
    rw [hdev, hroot, hg.inode_update harea (fun _ _ => Area.noConfusion) (h.valid ino hino)]
    exact h.table ino hino
  · intro x hx
    rw [hinodes] at hx
    obtain ⟨hx₁, hx₂, hx₃⟩ := h.inodes x hx
    have hne : g.inodeBitmap x.1 ≠ g.place (.blockBitmap group) := fun heq =>
      Area.noConfusion (hg.apart (.inodeBitmap x.1) (.blockBitmap group) hx₁ hgroup heq)
    refine ⟨hx₁, hx₂, ?_⟩
    rw [hdev, Function.update_of_ne hne]
    exact hx₃

theorem used_blockAt {device : ℕ → Bytes} {group index : ℕ} (hindex : index < g.blocksPerGroup) :
    g.used device (g.blockAt group index) = (device (g.blockBitmap group)).bit index := by
  rw [Geometry.used, Geometry.groupOf_blockAt hindex, Geometry.indexOf_blockAt hindex]

theorem take {group index : ℕ} (h : Sound g L D) (hgroup : group < g.groupCount)
    (hindex : index < g.blocksPerGroup)
    (hclear : (D.fs.device (g.blockBitmap group)).bit index = false) :
    Sound g L { D with
      fs := D.fs.takeBit .block group index
      held := insert (g.blockAt group index) D.held } := by
  have hunused : g.used D.fs.device (g.blockAt group index) = false :=
    (used_blockAt hindex).trans hclear
  have hindex' : index < BitmapKind.block.perGroup D.fs := by
    rw [← h.geometry] at hindex
    exact hindex
  refine h.changeBit hgroup hindex (by rw [Ext4Fs.geometry_takeBit, h.geometry]) rfl rfl
    (Ext4Fs.device_takeBit h.geometry h.sane hindex') ?_ ?_ ?_
  · intro j hj
    simp [hj, BitmapKind.area, Geometry.place]
  · intro _
    simp
  · intro b hb
    have hres : ¬g.Reserved (g.blockAt group index) := by
      intro hres
      have := h.guarded _ hres (Geometry.inRange_blockAt hgroup hindex)
      simp [hunused] at this
    have hfresh : ∀ k p, ¬D.Refs g k p (g.blockAt group index) := by
      intro k p hr
      have := (h.data _ _ _ hr).used
      simp [hunused] at this
    rcases Finset.mem_insert.mp hb with rfl | hold
    · exact .inr ⟨rfl, by simp, hres, hfresh⟩
    · refine .inl ⟨hold, ?_⟩
      rintro rfl
      have := (h.held _ hold).used
      simp [hunused] at this

theorem drop {b : ℕ} (h : Sound g L D) (hb : b ∈ D.held) :
    Sound g L { D with
      fs := D.fs.dropBit .block (g.groupOf b) (g.indexOf b)
      held := D.held.erase b } := by
  have hdata := h.held b hb
  have hgroup := h.sane.groupOf_lt hdata.inRange
  have hindex := h.sane.indexOf_lt (b := b)
  have hindex' : g.indexOf b < BitmapKind.block.perGroup D.fs := by
    rw [← h.geometry] at hindex ⊢
    exact hindex
  have hat := Geometry.blockAt_groupOf hdata.inRange
  refine h.changeBit hgroup hindex (by rw [Ext4Fs.geometry_dropBit, h.geometry]) rfl rfl
    (Ext4Fs.device_dropBit h.geometry h.sane hindex') ?_ ?_ ?_
  · intro j hj
    simp [hj, BitmapKind.area, Geometry.place]
  · rw [hat]
    rintro (hres | ⟨k, p, hr⟩)
    · exact absurd hres hdata.not_reserved
    · exact absurd hr (h.fresh b hb k p)
  · intro c hc
    obtain ⟨hne, hold⟩ := Finset.mem_erase.mp hc
    exact .inl ⟨hold, by rwa [hat]⟩

theorem changeInodeBit {D' : Draft} {group : ℕ} {blk : Bytes} (h : Sound g L D) (index : ℕ)
    (hgroup : group < g.groupCount) (hgeo : D'.fs.geometry = g) (hroot : D'.root = D.root)
    (hheld : D'.held = D.held)
    (hdev : D'.fs.device = Function.update D.fs.device (g.place (.inodeBitmap group)) blk)
    (hbit : ∀ j, j ≠ index → blk.bit j = (D.fs.device (g.inodeBitmap group)).bit j)
    (hinodes : ∀ x ∈ D'.inodes, x ∈ D.inodes ∧ x ≠ (group, index) ∨
      x = (group, index) ∧ index < g.inodesPerGroup ∧ blk.bit index = true) : Sound g L D' := by
  have hg := h.sane
  have harea : g.Has (.inodeBitmap group) := hgroup
  have hused : ∀ b, g.InRange b → g.used D'.fs.device b = g.used D.fs.device b := by
    intro b hb
    rw [hdev]
    exact hg.used_update harea (fun _ => Area.noConfusion) hb
  refine h.change hgeo (fun k b hb _ => hroot ▸ hb) ?_ ?_ ?_ ?_ ?_
  · intro k p b hb _ i _
    rw [Geometry.word, hdev, Function.update_of_ne (h.ne_place hb harea), Geometry.word]
  · intro b hb _ hb'
    rw [hused b hb]
    exact hb'
  · intro b hb
    rw [hheld] at hb
    have hdata := h.held b hb
    refine ⟨⟨hdata.inRange, ?_, hdata.not_reserved⟩, h.fresh b hb⟩
    rw [hused b hdata.inRange]
    exact hdata.used
  · intro ino hino
    rw [hdev, hroot, hg.inode_update harea (fun _ _ => Area.noConfusion) (h.valid ino hino)]
    exact h.table ino hino
  · intro x hx
    rcases hinodes x hx with ⟨hold, hne⟩ | ⟨rfl, hindex, hset⟩
    · obtain ⟨hx₁, hx₂, hx₃⟩ := h.inodes x hold
      refine ⟨hx₁, hx₂, ?_⟩
      rw [hdev]
      by_cases hsame : x.1 = group
      · have hne₂ : x.2 ≠ index := fun heq => hne (Prod.ext hsame heq)
        rw [hsame] at hx₃ ⊢
        have hself : Function.update D.fs.device (g.place (.inodeBitmap group)) blk
            (g.inodeBitmap group) = blk := Function.update_self _ _ _
        rw [hself, hbit _ hne₂]
        exact hx₃
      · have hplace : g.inodeBitmap x.1 ≠ g.place (.inodeBitmap group) := fun heq =>
          hsame (Area.inodeBitmap.inj (hg.apart (.inodeBitmap _) (.inodeBitmap _) hx₁ hgroup heq))
        rw [Function.update_of_ne hplace]
        exact hx₃
    · have hself : D'.fs.device (g.inodeBitmap group) = blk := by
        rw [hdev]
        exact Function.update_self _ _ _
      exact ⟨hgroup, hindex, by rw [hself]; exact hset⟩

theorem takeInode {group index : ℕ} (h : Sound g L D) (hgroup : group < g.groupCount)
    (hindex : index < g.inodesPerGroup)
    (hclear : (D.fs.device (g.inodeBitmap group)).bit index = false) :
    Sound g L { D with
      fs := D.fs.takeBit .inode group index
      inodes := insert (group, index) D.inodes } := by
  have hindex' : index < BitmapKind.inode.perGroup D.fs := by
    rw [← h.geometry] at hindex
    exact hindex
  refine h.changeInodeBit index hgroup (by rw [Ext4Fs.geometry_takeBit, h.geometry]) rfl rfl
    (Ext4Fs.device_takeBit h.geometry h.sane hindex') ?_ ?_
  · intro j hj
    simp [hj, BitmapKind.area, Geometry.place]
  · intro x hx
    rcases Finset.mem_insert.mp hx with rfl | hold
    · exact .inr ⟨rfl, hindex, by simp⟩
    · refine .inl ⟨hold, ?_⟩
      rintro rfl
      have := (h.inodes _ hold).2.2
      simp [hclear] at this

theorem dropInode {x : ℕ × ℕ} (h : Sound g L D) (hx : x ∈ D.inodes) :
    Sound g L { D with fs := D.fs.dropBit .inode x.1 x.2, inodes := D.inodes.erase x } := by
  obtain ⟨hgroup, hindex, _⟩ := h.inodes x hx
  have hindex' : x.2 < BitmapKind.inode.perGroup D.fs := by
    rw [← h.geometry] at hindex
    exact hindex
  refine h.changeInodeBit x.2 hgroup (by rw [Ext4Fs.geometry_dropBit, h.geometry]) rfl rfl
    (Ext4Fs.device_dropBit h.geometry h.sane hindex') ?_ ?_
  · intro j hj
    simp [hj, BitmapKind.area, Geometry.place]
  · intro y hy
    obtain ⟨hne, hold⟩ := Finset.mem_erase.mp hy
    exact .inl ⟨hold, hne⟩

theorem device_place {b : ℕ} {buf : Bytes} {fs : Ext4Fs} {a : Area} (hb : ¬g.Reserved b)
    (ha : g.Has a) : (fs.putBlock b buf).device (g.place a) = fs.device (g.place a) := by
  apply Ext4Fs.device_putBlock_of_ne
  rintro rfl
  exact hb (Geometry.reserved_place ha)

theorem used_putBlock {b c : ℕ} {buf : Bytes} {fs : Ext4Fs} (hg : g.Sane) (hb : ¬g.Reserved b)
    (hc : g.InRange c) : g.used (fs.putBlock b buf).device c = g.used fs.device c :=
  Geometry.used_congr (device_place (a := .blockBitmap _) hb (hg.groupOf_lt hc))

theorem inode_putBlock {b ino : ℕ} {buf : Bytes} {fs : Ext4Fs} (hg : g.Sane) (hb : ¬g.Reserved b)
    (hino : g.ValidIno ino) : g.inode (fs.putBlock b buf).device ino = g.inode fs.device ino :=
  Geometry.inode_congr (device_place hb (hg.has_inodeArea hino))

theorem write {b : ℕ} {buf : Bytes} (h : Sound g L D)
    (hb : b ∈ D.held ∨ ∃ k p, D.Refs g (ino, k) p b ∧ p.length = g.shape.depth (ino, k)) :
    Sound g L { D with fs := D.fs.putBlock b buf } := by
  have hres : ¬g.Reserved b := by
    rcases hb with hb | ⟨k, p, hr, _⟩
    · exact (h.held b hb).not_reserved
    · exact (h.data _ _ _ hr).not_reserved
  refine h.change h.geometry (fun _ _ hb _ => hb) ?_ ?_ ?_ ?_ ?_
  · intro k p c hc hp i _
    have hne : c ≠ b := by
      rcases hb with hb | ⟨k', p', hr, hlen⟩
      · rintro rfl
        exact h.fresh c hb k p hc
      · exact h.owned.ne_of_leaf hr hlen hc hp
    rw [Geometry.word, Ext4Fs.device_putBlock_of_ne hne, Geometry.word]
  · intro c hc _ hused
    rw [used_putBlock h.sane hres hc]
    exact hused
  · intro c hc
    have hdata := h.held c hc
    refine ⟨⟨hdata.inRange, ?_, hdata.not_reserved⟩, h.fresh c hc⟩
    rw [used_putBlock h.sane hres hdata.inRange]
    exact hdata.used
  · intro ino hino
    rw [inode_putBlock h.sane hres (h.valid ino hino)]
    exact h.table ino hino
  · intro x hx
    obtain ⟨hx₁, hx₂, hx₃⟩ := h.inodes x hx
    refine ⟨hx₁, hx₂, ?_⟩
    have hsame : (D.fs.putBlock b buf).device (g.inodeBitmap x.1) = D.fs.device (g.inodeBitmap x.1) :=
      device_place (a := .inodeBitmap x.1) hres hx₁
    rw [hsame]
    exact hx₃

theorem grow {D' : Draft} {b : ℕ} (h : Sound g L D) (k₀ : ℕ × Fin 15) (p₀ : List ℕ)
    (hb : b ∈ D.held) (hgeo : D'.fs.geometry = g)
    (hrefs : ∀ k p c, D'.Refs g k p c → D.Refs g k p c ∨ k = k₀ ∧ p = p₀ ∧ c = b)
    (hplace : ∀ a, g.Has a → D'.fs.device (g.place a) = D.fs.device (g.place a))
    (hroot : ∀ k c, D.root k c → D'.root k c)
    (hheld : D'.held = D.held.erase b) (hinodes : D'.inodes = D.inodes) : Sound g L D' := by
  have hused : ∀ c, g.InRange c → g.used D'.fs.device c = g.used D.fs.device c := fun c hc =>
    Geometry.used_congr (hplace (.blockBitmap _) (h.sane.groupOf_lt hc))
  have hdata : ∀ c, g.Data D.fs.device c → g.Data D'.fs.device c := fun c hc =>
    ⟨hc.inRange, (hused c hc.inRange).trans hc.used, hc.not_reserved⟩
  exact
    { geometry := hgeo
      sane := h.sane
      valid := h.valid
      guarded := fun c hc hr => (hused c hr).trans (h.guarded c hc hr)
      owned := h.owned.grow (h.fresh b hb) hrefs
      data := by
        intro k p c hc
        rcases hrefs k p c hc with hold | ⟨-, -, rfl⟩
        · exact hdata c (h.data k p c hold)
        · exact hdata c (h.held c hb)
      held := by
        intro c hc
        rw [hheld] at hc
        exact hdata c (h.held c (Finset.mem_of_mem_erase hc))
      fresh := by
        intro c hc k p hr
        rw [hheld] at hc
        obtain ⟨hne, hold⟩ := Finset.mem_erase.mp hc
        rcases hrefs k p c hr with hr | ⟨-, -, rfl⟩
        · exact h.fresh c hold k p hr
        · exact hne rfl
      table := by
        intro ino hino
        rw [Geometry.inode_congr (hplace _ (h.sane.has_inodeArea (h.valid ino hino)))]
        exact (h.table ino hino).mono fun k c hc => hroot _ _ hc
      inodes := by
        intro x hx
        rw [hinodes] at hx
        obtain ⟨hx₁, hx₂, hx₃⟩ := h.inodes x hx
        have hsame : D'.fs.device (g.inodeBitmap x.1) = D.fs.device (g.inodeBitmap x.1) :=
          hplace (.inodeBitmap x.1) hx₁
        exact ⟨hx₁, hx₂, by rw [hsame]; exact hx₃⟩ }

theorem hang {k : Fin 15} {b : ℕ} (h : Sound g L D) (hb : b ∈ D.held)
    (hzero : 0 < g.shape.depth (ino, k) → ∀ i < g.shape.arity, ptrAt (D.fs.device b) i = 0) :
    Sound g L { D with
      root := fun k' b' => D.root k' b' ∨ k' = (ino, k) ∧ b' = b
      held := D.held.erase b } :=
  h.grow (ino, k) [] hb h.geometry (fun _ _ _ hc => hc.of_addRoot (fun _ _ hr _ => hr) hzero) (fun _ _ => rfl)
    (fun _ _ => .inl) rfl rfl

theorem link {c i b : ℕ} (h : Sound g L D) (hc : D.root (ino, ext4IndBlock) c) (hc₀ : c ≠ 0)
    (hi : i < g.shape.arity) (hb : b ∈ D.held) :
    Sound g L { D with
      fs := D.fs.putBlock c ((D.fs.device c).store (4 * i) 4 b)
      held := D.held.erase b } := by
  have href : D.Refs g (ino, ext4IndBlock) [] c := .root hc hc₀
  have hlt : b < 2 ^ 32 := (h.held b hb).inRange.2.trans_le h.sane.blocks_le
  refine h.grow (ino, ext4IndBlock) [i] hb h.geometry ?_
    (fun a ha => device_place (h.data _ _ _ href).not_reserved ha) (fun _ _ => id) rfl rfl
  intro k p d hd
  refine hd.of_setWord h.owned href rfl (Geometry.ptrAt_setPtr h.geometry h.sane hi hlt) ?_
  intro k' p' b' _ _ j _ hne
  by_cases hbc : b' = c
  · subst hbc
    exact Geometry.ptrAt_setPtr_of_ne h.geometry h.sane hi (hne.resolve_left fun hcon => hcon rfl)
  · rw [Geometry.word, Geometry.word, Ext4Fs.device_putBlock_of_ne hbc]

theorem putInode {v : Bytes} (h : Sound g L D) (hino : g.ValidIno ino)
    (hv : ino ∈ L → Geometry.Rooted D.root ino v) :
    Sound g L { D with fs := D.fs.putInode ino v } := by
  have hg := h.sane
  have harea := hg.has_inodeArea hino
  have hdev : (D.fs.putInode ino v).device = _ := Ext4Fs.device_putInode h.geometry hg
  have hused : ∀ b, g.InRange b → g.used (D.fs.putInode ino v).device b = g.used D.fs.device b := by
    intro b hb
    rw [hdev]
    exact hg.used_update harea (fun _ => Area.noConfusion) hb
  refine h.change h.geometry (fun _ _ hb _ => hb) ?_ ?_ ?_ ?_ ?_
  · intro k p b hb _ i _
    rw [Geometry.word]
    dsimp only
    rw [hdev, Function.update_of_ne (h.ne_place hb harea), Geometry.word]
  · intro b hb _ hb'
    rw [hused b hb]
    exact hb'
  · intro b hb
    have hdata := h.held b hb
    refine ⟨⟨hdata.inRange, ?_, hdata.not_reserved⟩, h.fresh b hb⟩
    rw [hused b hdata.inRange]
    exact hdata.used
  · intro ino' hino'
    by_cases hsame : ino' = ino
    · subst hsame
      apply (hv hino').congr
      intro k
      exact Geometry.iBlock_congr fun i hi => Ext4Fs.inode_putInode_self h.geometry hg hi
    · apply (h.table ino' hino').congr
      intro k
      exact Geometry.iBlock_congr fun i hi =>
        Ext4Fs.inode_putInode_of_ne h.geometry hg hino (h.valid ino' hino') hsame hi
  · intro x hx
    obtain ⟨hx₁, hx₂, hx₃⟩ := h.inodes x hx
    have hne : g.inodeBitmap x.1 ≠ g.place (g.inodeArea ino) := fun heq =>
      Area.noConfusion (hg.apart (.inodeBitmap x.1) _ hx₁ harea heq)
    refine ⟨hx₁, hx₂, ?_⟩
    dsimp only
    rw [hdev, Function.update_of_ne hne]
    exact hx₃

theorem work {D' : Draft} (h : Sound g L D) (hwork : Work g ino D D') : Sound g L D' := by
  cases hwork with
  | take hgroup hindex hclear => exact h.take hgroup hindex hclear
  | drop hb => exact h.drop hb
  | takeInode hgroup hindex hclear => exact h.takeInode hgroup hindex hclear
  | dropInode hx => exact h.dropInode hx
  | write _ hb => exact h.write hb
  | link hc hc₀ hi hb => exact h.link hc hc₀ hi hb
  | hang hb hzero => exact h.hang hb hzero

theorem edit {D' : Draft} (h : Sound g L D) (hedit : DraftEdit g ino D D') : Sound g L D' := by
  cases hedit with
  | work hwork => exact h.work hwork
  | putInode hino hv => exact h.putInode hino fun _ => hv

theorem edits {I : Set ℕ} {D' : Draft} (h : Sound g L D) (hedits : DraftEdits g I D D') :
    Sound g L D' := by
  induction hedits with
  | refl => exact h
  | tail _ hlast ih =>
    obtain ⟨ino, _, hedit⟩ := hlast
    exact ih.edit hedit

theorem anti {L' : Set ℕ} (h : Sound g L D) (hsub : L' ⊆ L) : Sound g L' D :=
  { h with
    valid := fun i hi => h.valid i (hsub hi)
    table := fun i hi => h.table i (hsub hi) }

theorem adopt {i : ℕ} (h : Sound g L D) (hi : g.ValidIno i)
    (htable : Geometry.Rooted D.root i (g.inode D.fs.device i)) : Sound g (insert i L) D := by
  refine { h with valid := ?_, table := ?_ }
  · intro j hj
    rcases Set.mem_insert_iff.mp hj with rfl | hj
    · exact hi
    · exact h.valid j hj
  · intro j hj
    rcases Set.mem_insert_iff.mp hj with rfl | hj
    · exact htable
    · exact h.table j hj

theorem device_takeBit {k : BitmapKind} {group index : ℕ} (h : Sound g L D)
    (hindex : index < k.perGroup D.fs) {c : ℕ} (hc : c ≠ g.place (k.area group)) :
    (D.fs.takeBit k group index).device c = D.fs.device c := by
  rw [Ext4Fs.device_takeBit h.geometry h.sane hindex, Function.update_of_ne hc]

theorem device_dropBit {k : BitmapKind} {group index : ℕ} (h : Sound g L D)
    (hindex : index < k.perGroup D.fs) {c : ℕ} (hc : c ≠ g.place (k.area group)) :
    (D.fs.dropBit k group index).device c = D.fs.device c := by
  rw [Ext4Fs.device_dropBit h.geometry h.sane hindex, Function.update_of_ne hc]

theorem device_work {D' : Draft} (h : Sound g L D) (hwork : Work g ino D D') {c : ℕ}
    (hbits : ∀ k group, g.Has (BitmapKind.area k group) → c ≠ g.place (BitmapKind.area k group))
    (hheld : c ∉ D.held) (hrefs : ∀ k p, ¬D.Refs g (ino, k) p c) :
    D'.fs.device c = D.fs.device c := by
  have hblock : BitmapKind.block.perGroup D.fs = g.blocksPerGroup := by
    rw [← h.geometry]
    rfl
  have hinode : BitmapKind.inode.perGroup D.fs = g.inodesPerGroup := by
    rw [← h.geometry]
    rfl
  cases hwork with
  | take hgroup hindex _ =>
    exact h.device_takeBit (hblock ▸ hindex) (hbits .block _ hgroup)
  | drop hb =>
    exact h.device_dropBit (hblock ▸ h.sane.indexOf_lt)
      (hbits .block _ (h.sane.groupOf_lt (h.held _ hb).inRange))
  | takeInode hgroup hindex _ =>
    exact h.device_takeBit (hinode ▸ hindex) (hbits .inode _ hgroup)
  | dropInode hx =>
    obtain ⟨hgroup, hindex, -⟩ := h.inodes _ hx
    exact h.device_dropBit (hinode ▸ hindex) (hbits .inode _ hgroup)
  | write _ hb =>
    apply Ext4Fs.device_putBlock_of_ne
    rintro rfl
    rcases hb with hb | ⟨k, p, hr, -⟩
    · exact hheld hb
    · exact hrefs k p hr
  | link hc hc₀ _ _ =>
    apply Ext4Fs.device_putBlock_of_ne
    rintro rfl
    exact hrefs _ _ (.root hc hc₀)
  | hang => rfl

theorem inode_work {D' : Draft} {i : ℕ} (h : Sound g L D) (hwork : Work g ino D D')
    (hi : g.ValidIno i) : g.inode D'.fs.device i = g.inode D.fs.device i := by
  have harea := h.sane.has_inodeArea hi
  have hres := Geometry.reserved_place harea
  apply Geometry.inode_congr
  apply h.device_work hwork
  · intro k group hk heq
    have := h.sane.apart _ _ harea hk heq
    cases k <;> exact Area.noConfusion this
  · exact fun hheld => (h.held _ hheld).not_reserved hres
  · exact fun k p hr => (h.data _ _ _ hr).not_reserved hres

end Draft.Sound

end GcAos.Fs
