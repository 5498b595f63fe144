import GcAos.Fs.Ext4AllocLaws
import GcAos.Fs.Ext4File

/-! `ext4_get_file_block` after `ext4_set_file_block`: the two are a lens on the block map of an inode,
up to what the setter does when it has to make the single indirect block. -/

namespace GcAos.Fs
open Lib Draft

/-- Pointer `i` of the block `c` is set to `d`. -/
def Ext4Fs.setPtr (fs : Ext4Fs) (c i d : ℕ) : Ext4Fs :=
  fs.putBlock c ((fs.device c).store (4 * i) 4 d)

namespace Ext4

/-- `ext4_get_file_block` with memory at hand. -/
def mapped (s : Ext4) (v : Bytes) (fb : ℕ) : ℕ := (getFileBlock ⟨s.fs, [], []⟩ v fb).1

theorem mapped_eq {g : Geometry} {s : Ext4} (hg : s.fs.geometry = g) (v : Bytes) (fb : ℕ) :
    s.mapped v fb = g.fileBlock s.fs.device v fb := by
  rcases hget : getFileBlock ⟨s.fs, [], []⟩ v fb with ⟨r, s'⟩
  obtain ⟨-, -, -, hr⟩ := getFileBlock_eq (s := ⟨s.fs, [], []⟩) hg hget
  rw [mapped, hget]
  exact hr rfl rfl

/-- The block `b` is pointed to by the inode, or by a block of its pointer trees. -/
def References (s : Ext4) (ino : ℕ) (v : Bytes) (b : ℕ) : Prop :=
  ∃ k p, Lib.Refs s.fs.geometry.shape (fun k c => k.1 = ino ∧ iBlock v k.2 = c)
    (Geometry.word s.fs.device) k p b

/-- After a call that returns 0 the map has one new entry; after one that returns -1 it is the old
one, and every block in use that was free before is referenced by the inode. -/
structure SetsBlock (s : Ext4) (v : Bytes) (fb d ino : ℕ) : Prop where
  get_set : (s.setFileBlock v fb d ino).1 = 0 → ∀ fb',
    (s.setFileBlock v fb d ino).2.2.mapped (s.setFileBlock v fb d ino).2.1 fb' =
      if fb' = fb then d else s.mapped v fb'
  unchanged : (s.setFileBlock v fb d ino).1 = -1 → ∀ fb',
    (s.setFileBlock v fb d ino).2.2.mapped (s.setFileBlock v fb d ino).2.1 fb' = s.mapped v fb'
  no_leak : (s.setFileBlock v fb d ino).1 = -1 → ∀ b, s.fs.geometry.InRange b →
    s.fs.geometry.used s.fs.device b = false →
    s.fs.geometry.used (s.setFileBlock v fb d ino).2.2.fs.device b = true →
    (s.setFileBlock v fb d ino).2.2.References ino (s.setFileBlock v fb d ino).2.1 b

/-- The call has to make the single indirect block, gets as far as the search and takes the block
at bit `index` of `group` for it. -/
structure MakesIndirect (s : Ext4) (v : Bytes) (fb ino group index : ℕ) : Prop where
  beyond : ext4NdirBlocks ≤ fb
  within : fb - ext4NdirBlocks < s.fs.ptrsPerBlock
  missing : iBlock v ext4IndBlock = 0
  memory : s.kmalloc.1 = true
  finds : s.fs.Finds .block (s.inodeGroup ino) group index

def zeroes (s : Ext4) : Bool := s.kmalloc.2.kmalloc.1

/-- Whether there is memory to read the new block back and set the pointer. -/
def links (s : Ext4) : Bool := s.kmalloc.2.kmalloc.2.kmalloc.1

/-- The file system with the new block, zeroed or as it was. -/
def withIndirect (s : Ext4) (group index : ℕ) : Ext4Fs :=
  if s.zeroes then (s.fs.takeBit .block group index).putBlock (s.fs.geometry.blockAt group index) fun _ => 0
  else s.fs.takeBit .block group index

/-- How `ext4_set_file_block` can end, with the inode and the file system. -/
inductive SetEnd (s : Ext4) (v : Bytes) (fb d ino : ℕ) : ℤ → Bytes → Ext4Fs → Prop
  | direct (h : fb < ext4NdirBlocks) :
      SetEnd s v fb d ino 0 (ext4Inode.set v 0 (.block ⟨fb, lt_iBlock h⟩) d) s.fs
  -- out of reach, no memory or no block
  | refused : (∀ group index, ¬MakesIndirect s v fb ino group index) → SetEnd s v fb d ino (-1) v s.fs
  | present : ext4NdirBlocks ≤ fb → fb - ext4NdirBlocks < s.fs.ptrsPerBlock →
      iBlock v ext4IndBlock ≠ 0 →
      SetEnd s v fb d ino 0 v (s.fs.setPtr (iBlock v ext4IndBlock) (fb - ext4NdirBlocks) d)
  -- the number of the new block is negative as an `int`
  | negative {group index : ℕ} : MakesIndirect s v fb ino group index →
      2 ^ 31 ≤ s.fs.geometry.blockAt group index →
      SetEnd s v fb d ino (-1) v (s.fs.takeBit .block group index)
  | linked {group index : ℕ} : MakesIndirect s v fb ino group index →
      s.fs.geometry.blockAt group index < 2 ^ 31 → s.links = true →
      SetEnd s v fb d ino 0
        (ext4Inode.set v 0 (.block ext4IndBlock) (s.fs.geometry.blockAt group index))
        ((s.withIndirect group index).setPtr (s.fs.geometry.blockAt group index)
          (fb - ext4NdirBlocks) d)
  | unlinked {group index : ℕ} : MakesIndirect s v fb ino group index →
      s.fs.geometry.blockAt group index < 2 ^ 31 → s.links = false →
      SetEnd s v fb d ino (-1)
        (ext4Inode.set v 0 (.block ext4IndBlock) (s.fs.geometry.blockAt group index))
        (s.withIndirect group index)

variable {s s' : Ext4} {v v' : Bytes} {fb d ino group index : ℕ} {r : ℤ}

theorem finds_lt {preferred : ℕ} (hg : s.fs.geometry.Sane)
    (h : s.fs.Finds .block preferred group index) : s.fs.geometry.blockAt group index < 2 ^ 32 :=
  (Geometry.inRange_blockAt h.seen.group_lt h.seen.index_lt).2.trans_le hg.blocks_le

theorem kmalloc_pair {s : Ext4} {ok : Bool} (h : s.kmalloc.1 = ok) : s.kmalloc = (ok, s.kmalloc.2) :=
  Prod.ext h rfl

theorem makeIndirect_quiet (hg : s.fs.geometry.Sane) (hios : s.ios = [])
    (hnone : iBlock v ext4IndBlock = 0) (preferred : ℕ) :
    (∃ s₁ : Ext4, s.makeIndirect v preferred = (-1, v, s₁) ∧ s₁.fs = s.fs ∧
      (s.kmalloc.1 = true → ∀ group index, ¬s.fs.Finds .block preferred group index)) ∨
    ∃ group index, s.kmalloc.1 = true ∧ s.fs.Finds .block preferred group index ∧
      (2 ^ 31 ≤ s.fs.geometry.blockAt group index ∧
        s.makeIndirect v preferred =
          (-1, v, { s.kmalloc.2 with fs := s.fs.takeBit .block group index }) ∨
      s.fs.geometry.blockAt group index < 2 ^ 31 ∧
        s.makeIndirect v preferred = (0,
          ext4Inode.set v 0 (.block ext4IndBlock) (s.fs.geometry.blockAt group index),
          { s.kmalloc.2.kmalloc.2 with fs := s.withIndirect group index })) := by
  unfold makeIndirect
  rw [if_pos hnone]
  rcases allocBlock_finds preferred hios with
    ⟨hret, hfs, hno⟩ | ⟨hok, group, index, hfinds, hcall⟩
  · refine .inl ⟨(s.allocBlock preferred).2, ?_, hfs, fun hok group index hfinds => ?_⟩
    · rw [show s.allocBlock preferred = (-1, (s.allocBlock preferred).2) from Prod.ext hret rfl]
      dsimp only
      rw [if_pos (by decide)]
    · obtain ⟨n, hn, hturn, -⟩ := hfinds.turn
      exact hno hok n hn index (hturn ▸ hfinds.seen)
  · refine .inr ⟨group, index, hok, hfinds, ?_⟩
    rw [hcall]
    dsimp only
    rcases Nat.lt_or_ge (s.fs.geometry.blockAt group index) (2 ^ 31) with hlt | hge
    · refine .inr ⟨hlt, ?_⟩
      rw [toInt_of_lt hlt, if_neg (not_lt.mpr (Int.natCast_nonneg _)), Int.toNat_natCast]
      obtain ⟨s₁, hs₁⟩ : ∃ s₁ : Ext4,
          s₁ = { s.kmalloc.2 with fs := s.fs.takeBit .block group index } := ⟨_, rfl⟩
      have hios₁ : s₁.kmalloc.2.ios = [] := by
        rw [hs₁]
        exact hios
      have hzeroes : s₁.kmalloc.1 = s.zeroes := by
        rw [hs₁]
        rfl
      rw [← hs₁, kmalloc_pair hzeroes]
      dsimp only
      unfold withIndirect
      cases hz : s.zeroes with
      | false =>
        rw [if_neg Bool.false_ne_true, if_neg Bool.false_ne_true, hs₁]
        rfl
      | true =>
        rw [if_pos rfl, if_pos rfl, writeBlockRaw_quiet hios₁, hs₁]
        rfl
    · refine .inl ⟨hge, ?_⟩
      rw [if_pos (toInt_neg hge (finds_lt hg hfinds))]

theorem linkBlock_quiet {i : ℕ} (hios : s.ios = []) (h : s.linkBlock v i d = (r, v', s')) :
    v' = v ∧ (s.kmalloc.1 = true ∧ r = 0 ∧ s'.fs = s.fs.setPtr (iBlock v ext4IndBlock) i d ∨
      s.kmalloc.1 = false ∧ r = -1 ∧ s'.fs = s.fs) := by
  unfold linkBlock at h
  cases hok : s.kmalloc.1 with
  | false =>
    rw [hok] at h
    cases h
    exact ⟨rfl, .inr ⟨rfl, rfl, rfl⟩⟩
  | true =>
    rw [hok, if_neg (by decide), readBlock_quiet (s := s.kmalloc.2) hios] at h
    dsimp only at h
    rw [writeBlockRaw_quiet (s := s.kmalloc.2) hios] at h
    cases h
    exact ⟨rfl, .inl ⟨rfl, rfl, rfl⟩⟩

theorem setFileBlock_end (hg : s.fs.geometry.Sane) (hios : s.ios = [])
    (h : s.setFileBlock v fb d ino = (r, v', s')) : SetEnd s v fb d ino r v' s'.fs := by
  by_cases hdir : fb < ext4NdirBlocks
  · rw [setFileBlock, dif_pos hdir] at h
    cases h
    exact .direct hdir
  by_cases hin : fb - ext4NdirBlocks < s.fs.ptrsPerBlock
  swap
  · rw [setFileBlock, dif_neg hdir] at h
    dsimp only at h
    rw [if_neg hin] at h
    cases h
    exact .refused fun group index hmakes => hin hmakes.within
  by_cases hnone : iBlock v ext4IndBlock = 0
  · rcases makeIndirect_quiet hg hios hnone (s.inodeGroup ino) with
      ⟨s₁, hmake, hfs, hno⟩ | ⟨group, index, hok, hfinds, ⟨hge, hmake⟩ | ⟨hlt, hmake⟩⟩
    · rw [setFileBlock_beyond hdir hin hmake, if_pos (by decide)] at h
      cases h
      rw [hfs]
      exact .refused fun group index hmakes => hno hmakes.memory group index hmakes.finds
    · rw [setFileBlock_beyond hdir hin hmake, if_pos (by decide)] at h
      cases h
      exact .negative ⟨not_lt.mp hdir, hin, hnone, hok, hfinds⟩ hge
    · rw [setFileBlock_beyond hdir hin hmake, if_neg (by decide)] at h
      have hptr : iBlock (ext4Inode.set v 0 (.block ext4IndBlock)
          (s.fs.geometry.blockAt group index)) ext4IndBlock = s.fs.geometry.blockAt group index :=
        Geometry.iBlock_set_self (finds_lt hg hfinds)
      have hmakes : MakesIndirect s v fb ino group index :=
        ⟨not_lt.mp hdir, hin, hnone, hok, hfinds⟩
      obtain ⟨rfl, ⟨hlinks, rfl, hfs⟩ | ⟨hlinks, rfl, hfs⟩⟩ := linkBlock_quiet
        (s := { s.kmalloc.2.kmalloc.2 with fs := s.withIndirect group index }) hios h
      · rw [hfs, hptr]
        exact .linked hmakes hlt hlinks
      · rw [hfs]
        exact .unlinked hmakes hlt hlinks
  · have hmake : s.makeIndirect v (s.inodeGroup ino) = (0, v, s) := if_neg hnone
    rw [setFileBlock_beyond hdir hin hmake, if_neg (by decide)] at h
    obtain ⟨rfl, ⟨-, rfl, hfs⟩ | ⟨-, rfl, hfs⟩⟩ := linkBlock_quiet hios h
    · rw [hfs]
      exact .present (not_lt.mp hdir) hin hnone
    · rw [hfs]
      exact .refused fun group index hmakes => hnone hmakes.missing

/-- A block that becomes the single indirect block has a number below 2^31, and it is zeroed or has
no pointer beside the one that is set. -/
structure CleanIndirect (s : Ext4) (fb group index : ℕ) : Prop where
  small : s.fs.geometry.blockAt group index < 2 ^ 31
  zero : s.zeroes = true ∨ ∀ j < s.fs.ptrsPerBlock, (s.links = true ∧ j = fb - ext4NdirBlocks) ∨
    ptrAt (s.fs.device (s.fs.geometry.blockAt group index)) j = 0

/-- A file system in which the free block `b` has been put to use. -/
structure NewBlock (g : Geometry) (D : Draft) (s : Ext4) (fs : Ext4Fs) (b : ℕ) : Prop where
  geometry : fs.geometry = g
  lt : b < 2 ^ 32
  inRange : g.InRange b
  clear : g.used s.fs.device b = false
  not_reserved : ¬g.Reserved b
  not_refs : ∀ k p, ¬D.Refs g k p b
  device : ∀ c, ¬g.Reserved c → c ≠ b → fs.device c = s.fs.device c
  used : ∀ c, g.InRange c → g.used fs.device c = true → g.used s.fs.device c = false → c = b
  taken : g.used fs.device b = true

section
variable {g : Geometry} {L : Set ℕ} {D : Draft} (hs : Sound g L D) (hD : D.fs = s.fs)
include hs hD

theorem newBlock_takeBit (hfree : s.fs.FreeBit .block group index) :
    NewBlock g D s (s.fs.takeBit .block group index) (g.blockAt group index) ∧
      (s.fs.takeBit .block group index).device (g.blockAt group index) =
        s.fs.device (g.blockAt group index) := by
  have hgeo : s.fs.geometry = g := geometry_eq hs hD
  have hgroup : group < g.groupCount := hgeo ▸ hfree.group_lt
  have hindex : index < g.blocksPerGroup := hgeo ▸ hfree.index_lt
  have hbitmap : BitmapKind.block.bitmap s.fs group = g.blockBitmap group := by
    rw [← hgeo]
    rfl
  have hclear : (D.fs.device (g.blockBitmap group)).bit index = false := by
    rw [hD, ← hbitmap]
    exact hfree.clear
  obtain ⟨hres, -, hrefs⟩ := hs.fresh_of_clear hgroup hindex hclear
  have hdevice : (s.fs.takeBit .block group index).device =
      Function.update s.fs.device (g.blockBitmap group)
        ((s.fs.device (g.blockBitmap group)).setBit index) :=
    Ext4Fs.device_takeBit hgeo hs.sane hfree.index_lt
  have hplace : g.Has (.blockBitmap group) := hgroup
  have hother : ∀ c, ¬g.Reserved c → (s.fs.takeBit .block group index).device c = s.fs.device c := by
    intro c hc
    rw [hdevice]
    apply Function.update_of_ne
    rintro rfl
    exact hc (Geometry.reserved_place hplace)
  have hused : ∀ c, g.InRange c → g.used (s.fs.takeBit .block group index).device c =
      if c = g.blockAt group index then true else g.used s.fs.device c := by
    intro c hc
    rw [hdevice, hs.sane.used_update_bitmap hgroup hindex hc fun j hj => by simp [hj]]
    simp
  have hrange := Geometry.inRange_blockAt hgroup hindex
  refine ⟨⟨?_, hrange.2.trans_le hs.sane.blocks_le, hrange, ?_, hres, hrefs, fun c hc _ => hother c hc,
    ?_, ?_⟩, hother _ hres⟩
  · rw [Ext4Fs.geometry_takeBit, hgeo]
  · rw [Sound.used_blockAt hindex, ← hD]
    exact hclear
  · intro c hc htrue hfalse
    rw [hused c hc] at htrue
    by_contra hne
    rw [if_neg hne, hfalse] at htrue
    exact Bool.false_ne_true htrue
  · rw [hused _ hrange, if_pos rfl]

omit hD in
theorem NewBlock.write {fs : Ext4Fs} {b : ℕ} {buf : Bytes} (h : NewBlock g D s fs b) :
    NewBlock g D s (fs.putBlock b buf) b where
  geometry := by rw [Ext4Fs.geometry_putBlock, h.geometry]
  lt := h.lt
  inRange := h.inRange
  clear := h.clear
  not_reserved := h.not_reserved
  not_refs := h.not_refs
  device c hc hne := by rw [Ext4Fs.device_putBlock_of_ne hne, h.device c hc hne]
  used c hc := by
    rw [Sound.used_putBlock hs.sane h.not_reserved hc]
    exact h.used c hc
  taken := by
    rw [Sound.used_putBlock hs.sane h.not_reserved h.inRange]
    exact h.taken

theorem newBlock_withIndirect (hfree : s.fs.FreeBit .block group index) :
    NewBlock g D s (s.withIndirect group index) (g.blockAt group index) ∧
      ∀ j < g.shape.arity, ptrAt ((s.withIndirect group index).device (g.blockAt group index)) j =
        if s.zeroes = true then 0 else ptrAt (s.fs.device (g.blockAt group index)) j := by
  obtain ⟨hnew, hsame⟩ := newBlock_takeBit hs hD hfree
  unfold withIndirect
  rw [geometry_eq hs hD]
  split
  · exact ⟨hnew.write hs, fun j hj => Geometry.ptrAt_zero hnew.geometry hs.sane hj⟩
  · exact ⟨hnew, fun j hj => by rw [hsame]⟩

theorem NewBlock.fileBlock {fs : Ext4Fs} {b : ℕ} (h : NewBlock g D s fs b)
    (hv : Geometry.Rooted D.root ino v) (fb : ℕ) :
    g.fileBlock fs.device (ext4Inode.set v 0 (.block ext4IndBlock) b) fb =
      if ext4NdirBlocks ≤ fb ∧ fb - ext4NdirBlocks < g.shape.arity then
        ptrAt (fs.device b) (fb - ext4NdirBlocks)
      else g.fileBlock s.fs.device v fb := by
  split
  · next hin =>
    rw [Geometry.fileBlock_single hin.1 hin.2, Geometry.iBlock_set_self h.lt,
      if_neg fun h0 => h.not_reserved (.inl h0)]
  · next hout =>
    refine fileBlock_beside hs hD hv (fun k hk => ?_) (fun p => h.not_refs _ p) h.device (by omega)
    exact Geometry.iBlock_set_of_ne fun heq => hk (InodeField.block.inj heq).symm

theorem NewBlock.fileBlock_setPtr {fs : Ext4Fs} {b : ℕ} (h : NewBlock g D s fs b)
    (hv : Geometry.Rooted D.root ino v) (hdir : ext4NdirBlocks ≤ fb)
    (hin : fb - ext4NdirBlocks < g.shape.arity) (hd : d < 2 ^ 32) (fb' : ℕ) :
    g.fileBlock (fs.setPtr b (fb - ext4NdirBlocks) d).device
      (ext4Inode.set v 0 (.block ext4IndBlock) b) fb' =
      if fb' = fb then d
      else g.fileBlock fs.device (ext4Inode.set v 0 (.block ext4IndBlock) b) fb' := by
  have hwrite : NewBlock g D s (fs.setPtr b (fb - ext4NdirBlocks) d) b := h.write hs
  rw [hwrite.fileBlock hs hD hv, h.fileBlock hs hD hv]
  by_cases hsame : fb' = fb
  · rw [if_pos ⟨hsame ▸ hdir, hsame ▸ hin⟩, if_pos hsame, hsame]
    exact Geometry.ptrAt_setPtr h.geometry hs.sane hin hd
  · rw [if_neg hsame]
    by_cases hsingle : ext4NdirBlocks ≤ fb' ∧ fb' - ext4NdirBlocks < g.shape.arity
    · rw [if_pos hsingle, if_pos hsingle]
      exact Geometry.ptrAt_setPtr_of_ne h.geometry hs.sane hin (by omega)
    · rw [if_neg hsingle, if_neg hsingle]

theorem fileBlock_setPtr (hv : Geometry.Rooted D.root ino v) (hdir : ext4NdirBlocks ≤ fb)
    (hin : fb - ext4NdirBlocks < g.shape.arity) (hne : iBlock v ext4IndBlock ≠ 0)
    (hd : d < 2 ^ 32) (fb' : ℕ) :
    g.fileBlock (s.fs.setPtr (iBlock v ext4IndBlock) (fb - ext4NdirBlocks) d).device v fb' =
      if fb' = fb then d else g.fileBlock s.fs.device v fb' := by
  have hgeo : s.fs.geometry = g := geometry_eq hs hD
  by_cases hin' : ext4NdirBlocks ≤ fb' ∧ fb' - ext4NdirBlocks < g.shape.arity
  · rw [Geometry.fileBlock_single hin'.1 hin'.2, Geometry.fileBlock_single hin'.1 hin'.2, if_neg hne,
      if_neg hne]
    by_cases hsame : fb' = fb
    · rw [if_pos hsame, hsame]
      exact Geometry.ptrAt_setPtr hgeo hs.sane hin hd
    · rw [if_neg hsame]
      exact Geometry.ptrAt_setPtr_of_ne hgeo hs.sane hin (by omega)
  · have href : D.Refs g (ino, ext4IndBlock) [] (iBlock v ext4IndBlock) := hv.refs hne
    rw [if_neg (by omega)]
    refine fileBlock_beside (c := iBlock v ext4IndBlock) hs hD hv (fun _ _ => rfl) (fun p hp => ?_)
      (fun c _ hc => ?_) (by omega)
    · exact absurd (Prod.mk.inj (hs.owned href hp).1).2 (by decide)
    · exact Ext4Fs.device_putBlock_of_ne hc

theorem NewBlock.not_references {fs : Ext4Fs} {b : ℕ} (h : NewBlock g D s fs b)
    (hsame : fs.device b = s.fs.device b) (hv : Geometry.Rooted D.root ino v) :
    ¬References { s with fs := fs } ino v b := by
  rintro ⟨k, p, hr⟩
  rw [show (Ext4.mk fs s.kmallocs s.ios).fs.geometry = g from h.geometry] at hr
  refine h.not_refs k p (hr.mono ?_ ?_)
  · rintro ⟨n, k⟩ c ⟨rfl, rfl⟩ hne
    exact hv k hne
  · intro k p c hc _ i _
    have hc' : fs.device c = s.fs.device c := by
      by_cases hcb : c = b
      · rw [hcb, hsame]
      · exact h.device c (hs.data _ _ _ hc).not_reserved hcb
    show ptrAt (fs.device c) i = ptrAt (D.fs.device c) i
    rw [hc', hD]

end

theorem MakesIndirect.forall_iff (h : MakesIndirect s v fb ino group index) :
    (∀ group index, MakesIndirect s v fb ino group index → CleanIndirect s fb group index) ↔
      CleanIndirect s fb group index := by
  constructor
  · exact fun hclean => hclean group index h
  · intro hclean group' index' h'
    obtain ⟨rfl, rfl⟩ := h.finds.unique h'.finds
    exact hclean

theorem MakesIndirect.fileBlock_eq_zero {g : Geometry} (h : MakesIndirect s v fb ino group index)
    {device : ℕ → Bytes} {fb' : ℕ} (hdir : ext4NdirBlocks ≤ fb')
    (hin : fb' - ext4NdirBlocks < g.shape.arity) : g.fileBlock device v fb' = 0 := by
  rw [Geometry.fileBlock_single hdir hin, if_pos h.missing]

theorem setsBlock_iff_of_zero (hset : s.setFileBlock v fb d ino = (0, v', s')) :
    SetsBlock s v fb d ino ↔ ∀ fb', s'.mapped v' fb' = if fb' = fb then d else s.mapped v fb' := by
  constructor
  · intro h
    have hget := h.get_set
    rw [hset] at hget
    exact hget rfl
  · intro h
    refine ⟨?_, ?_, ?_⟩
    · rw [hset]
      exact fun _ => h
    · rw [hset]
      exact fun h01 => absurd (show (0 : ℤ) = -1 from h01) (by decide)
    · rw [hset]
      exact fun h01 => absurd (show (0 : ℤ) = -1 from h01) (by decide)

theorem setsBlock_iff_of_neg (hset : s.setFileBlock v fb d ino = (-1, v', s')) :
    SetsBlock s v fb d ino ↔ (∀ fb', s'.mapped v' fb' = s.mapped v fb') ∧
      ∀ b, s.fs.geometry.InRange b → s.fs.geometry.used s.fs.device b = false →
        s.fs.geometry.used s'.fs.device b = true → s'.References ino v' b := by
  constructor
  · intro h
    have hsame := h.unchanged
    have hleak := h.no_leak
    rw [hset] at hsame hleak
    exact ⟨hsame rfl, hleak rfl⟩
  · rintro ⟨hsame, hleak⟩
    refine ⟨?_, ?_, ?_⟩
    · rw [hset]
      exact fun h01 => absurd (show (-1 : ℤ) = 0 from h01) (by decide)
    · rw [hset]
      exact fun _ => hsame
    · rw [hset]
      exact fun _ => hleak

section
variable {g : Geometry} {L : Set ℕ} {D : Draft} (hs : Sound g L D) (hD : D.fs = s.fs)
  (hv : Geometry.Rooted D.root ino v) (hmakes : MakesIndirect s v fb ino group index)
include hs hD hv hmakes

theorem MakesIndirect.clean_iff (hlt : s.fs.geometry.blockAt group index < 2 ^ 31) :
    CleanIndirect s fb group index ↔ ∀ fb', ¬(s.links = true ∧ fb' = fb) →
      g.fileBlock (s.withIndirect group index).device
        (ext4Inode.set v 0 (.block ext4IndBlock) (g.blockAt group index)) fb' =
        g.fileBlock s.fs.device v fb' := by
  have hgeo : s.fs.geometry = g := geometry_eq hs hD
  have hptrs : s.fs.ptrsPerBlock = g.shape.arity := by
    rw [← hgeo]
    rfl
  obtain ⟨hnew, hwords⟩ := newBlock_withIndirect hs hD hmakes.finds.seen.toFreeBit
  have hdir := hmakes.beyond
  constructor
  · intro hclean fb' hother
    rw [hnew.fileBlock hs hD hv]
    split
    · next hsingle =>
      rw [hmakes.fileBlock_eq_zero hsingle.1 hsingle.2, hwords _ hsingle.2]
      split
      · rfl
      · next hz =>
        have hzero := hclean.zero.resolve_left hz
        rw [hptrs, hgeo] at hzero
        refine (hzero _ hsingle.2).resolve_left fun hk => hother ⟨hk.1, ?_⟩
        omega
    · rfl
  · intro h
    refine ⟨hlt, ?_⟩
    rw [hptrs, hgeo, or_iff_not_imp_left]
    intro hz j hj
    rw [or_iff_not_imp_left]
    intro hne
    have hj' : ext4NdirBlocks + j - ext4NdirBlocks < g.shape.arity := by
      rwa [Nat.add_sub_cancel_left]
    have hfb := h (ext4NdirBlocks + j) fun hk => hne ⟨hk.1, by omega⟩
    rwa [hnew.fileBlock hs hD hv, if_pos ⟨Nat.le_add_right _ _, hj'⟩,
      hmakes.fileBlock_eq_zero (Nat.le_add_right _ _) hj', Nat.add_sub_cancel_left, hwords j hj,
      if_neg hz] at hfb

theorem MakesIndirect.not_setsBlock (hset : s.setFileBlock v fb d ino = (-1, v, s'))
    (hfs : s'.fs = s.fs.takeBit .block group index) : ¬SetsBlock s v fb d ino := by
  have hgeo : s.fs.geometry = g := geometry_eq hs hD
  intro h
  obtain ⟨hnew, hsame⟩ := newBlock_takeBit hs hD hmakes.finds.seen.toFreeBit
  obtain ⟨-, hleak⟩ := (setsBlock_iff_of_neg hset).mp h
  rw [hgeo, hfs] at hleak
  have hrefs := hleak _ hnew.inRange hnew.clear hnew.taken
  exact hnew.not_references hs hD hsame hv (hfs ▸ hrefs)

theorem MakesIndirect.linked_iff (hlt : s.fs.geometry.blockAt group index < 2 ^ 31)
    (hlinks : s.links = true) (hd : d < 2 ^ 32)
    (hset : s.setFileBlock v fb d ino =
      (0, ext4Inode.set v 0 (.block ext4IndBlock) (s.fs.geometry.blockAt group index), s'))
    (hfs : s'.fs = (s.withIndirect group index).setPtr (s.fs.geometry.blockAt group index)
      (fb - ext4NdirBlocks) d) :
    SetsBlock s v fb d ino ↔ CleanIndirect s fb group index := by
  obtain ⟨hnew, -⟩ := newBlock_withIndirect hs hD hmakes.finds.seen.toFreeBit
  have hgeo : s.fs.geometry = g := geometry_eq hs hD
  have hin : fb - ext4NdirBlocks < g.shape.arity := hgeo ▸ hmakes.within
  have hgeo' : s'.fs.geometry = g := by
    rw [hfs, hgeo]
    exact (hnew.write hs).geometry
  rw [setsBlock_iff_of_zero hset, hmakes.clean_iff hs hD hv hlt]
  refine forall_congr' fun fb' => ?_
  rw [mapped_eq hgeo', mapped_eq hgeo, hfs, hgeo,
    hnew.fileBlock_setPtr hs hD hv hmakes.beyond hin hd]
  by_cases hsame : fb' = fb
  · rw [if_pos hsame, if_pos hsame]
    exact iff_of_true rfl fun hother => absurd ⟨hlinks, hsame⟩ hother
  · rw [if_neg hsame, if_neg hsame, imp_iff_right fun h => hsame h.2]

theorem MakesIndirect.unlinked_iff (hlt : s.fs.geometry.blockAt group index < 2 ^ 31)
    (hlinks : s.links = false)
    (hset : s.setFileBlock v fb d ino =
      (-1, ext4Inode.set v 0 (.block ext4IndBlock) (s.fs.geometry.blockAt group index), s'))
    (hfs : s'.fs = s.withIndirect group index) :
    SetsBlock s v fb d ino ↔ CleanIndirect s fb group index := by
  obtain ⟨hnew, -⟩ := newBlock_withIndirect hs hD hmakes.finds.seen.toFreeBit
  have hgeo : s.fs.geometry = g := geometry_eq hs hD
  have hgeo' : s'.fs.geometry = g := by
    rw [hfs]
    exact hnew.geometry
  rw [setsBlock_iff_of_neg hset, hmakes.clean_iff hs hD hv hlt, hgeo]
  have hreferenced : ∀ b, g.InRange b → g.used s.fs.device b = false →
      g.used s'.fs.device b = true →
      s'.References ino (ext4Inode.set v 0 (.block ext4IndBlock) (g.blockAt group index)) b := by
    intro b hrange hfree hused
    rw [hfs] at hused
    obtain rfl := hnew.used b hrange hused hfree
    refine ⟨(ino, ext4IndBlock), [], .root ⟨rfl, ?_⟩ fun h0 => hnew.not_reserved (.inl h0)⟩
    exact Geometry.iBlock_set_self hnew.lt
  rw [and_iff_left hreferenced]
  refine forall_congr' fun fb' => ?_
  rw [mapped_eq hgeo', mapped_eq hgeo, hfs,
    imp_iff_right fun h => Bool.false_ne_true (hlinks.symm.trans h.1)]

end

/-- The laws hold exactly if a block that is made the single indirect block is a clean one. -/
theorem set_file_block_iff {g : Geometry} {L : Set ℕ} {D : Draft} (hs : Sound g L D)
    (hD : D.fs = s.fs) (hv : Geometry.Rooted D.root ino v) (hios : s.ios = []) (hd : d < 2 ^ 32) :
    SetsBlock s v fb d ino ↔
      ∀ group index, MakesIndirect s v fb ino group index → CleanIndirect s fb group index := by
  have hgeo : s.fs.geometry = g := geometry_eq hs hD
  have hptrs : s.fs.ptrsPerBlock = g.shape.arity := by
    rw [← hgeo]
    rfl
  have hbefore : ∀ fb', s.mapped v fb' = g.fileBlock s.fs.device v fb' := mapped_eq hgeo v
  rcases hset : s.setFileBlock v fb d ino with ⟨r, v', s'⟩
  have hend := setFileBlock_end (hgeo ▸ hs.sane) hios hset
  generalize hfs' : s'.fs = fs' at hend
  cases hend with
  | direct hdir =>
    refine iff_of_true ((setsBlock_iff_of_zero hset).mpr fun fb' => ?_) fun group index hmakes => ?_
    · rw [mapped_eq (hfs' ▸ hgeo), hbefore, hfs']
      exact Geometry.fileBlock_set_direct hdir hd
    · exact absurd hmakes.beyond (not_le.mpr hdir)
  | refused hnone =>
    refine iff_of_true ((setsBlock_iff_of_neg hset).mpr ⟨fun fb' => ?_, fun b _ hfree hused => ?_⟩)
      fun group index hmakes => absurd hmakes (hnone group index)
    · rw [mapped_eq (hfs' ▸ hgeo), hbefore, hfs']
    · rw [hfs', hfree] at hused
      exact absurd hused Bool.false_ne_true
  | present hdir hin hne =>
    refine iff_of_true ((setsBlock_iff_of_zero hset).mpr fun fb' => ?_) fun group index hmakes =>
      absurd hmakes.missing hne
    have hgeo' : s'.fs.geometry = g := by
      rw [hfs']
      exact Ext4Fs.geometry_putBlock.trans hgeo
    rw [mapped_eq hgeo', hbefore, hfs']
    exact fileBlock_setPtr hs hD hv hdir (hptrs ▸ hin) hne hd fb'
  | @negative group index hmakes hge =>
    refine iff_of_false (hmakes.not_setsBlock hs hD hv hset hfs') fun hclean => ?_
    exact absurd (hclean group index hmakes).small (not_lt.mpr hge)
  | @linked group index hmakes hlt hlinks =>
    rw [hmakes.linked_iff hs hD hv hlt hlinks hd hset hfs', hmakes.forall_iff]
  | @unlinked group index hmakes hlt hlinks =>
    rw [hmakes.unlinked_iff hs hD hv hlt hlinks hset hfs', hmakes.forall_iff]

theorem set_file_block_sample : SetsBlock sample (sample.inodeOf 2) 12 9 2 := by
  have hlive : 2 ∈ sampleFs.live := by decide +kernel
  have hroot : Geometry.Rooted (closed sampleFs.geometry sampleFs.live sampleFs).root 2
      (sample.inodeOf 2) := fun _ _ => ⟨hlive, rfl⟩
  refine (set_file_block_iff sampleFs_consistent rfl hroot rfl (by decide)).mpr ?_
  intro group index hmakes
  have hsmall : sampleFs.geometry.firstDataBlock +
      sampleFs.geometry.groupCount * sampleFs.geometry.blocksPerGroup ≤ 2 ^ 31 := by decide +kernel
  have hfree := hmakes.finds.seen
  have hrange : sampleFs.geometry.InRange (sampleFs.geometry.blockAt group index) :=
    Geometry.inRange_blockAt hfree.group_lt hfree.index_lt
  exact ⟨hrange.2.trans_le hsmall, .inl rfl⟩

def stale : Ext4 := ⟨sampleFs.putBlock 7 fun _ => 1, [true, false], []⟩

theorem stale_consistent : stale.fs.Consistent := by
  have hres : ¬sampleFs.geometry.Reserved 7 := by
    rintro (h | ⟨a, ha, h⟩)
    · exact absurd h (by decide)
    · rcases sampleFs_place ha with ⟨-, h'⟩ | ⟨-, h'⟩ | ⟨j, hj, -, h'⟩ <;> omega
  refine Ext4Fs.consistent_of_no_block sampleFs_sane (fun b hb hrange => ?_) fun ino hino k => ?_
  · exact (Sound.used_putBlock sampleFs_sane hres hrange).trans (sampleFs_guarded hb hrange)
  · have hinode : stale.fs.geometry.inode stale.fs.device ino =
        sampleFs.geometry.inode sampleFs.device ino :=
      Sound.inode_putBlock sampleFs_sane hres hino.1
    rw [hinode]
    exact sampleFs_no_block hino.1 k

/-- The block is made the single indirect block as it was, and file block 13 is mapped. -/
theorem set_file_block_keeps_stale : stale.fs.Consistent ∧ 2 ∈ stale.fs.live ∧ stale.ios = [] ∧
    ¬SetsBlock stale (stale.inodeOf 2) 12 9 2 := by
  refine ⟨stale_consistent, by decide +kernel, rfl, fun h => ?_⟩
  have hret : (stale.setFileBlock (stale.inodeOf 2) 12 9 2).1 = 0 := by decide +kernel
  exact absurd (h.get_set hret 13) (by decide +kernel)

end Ext4

end GcAos.Fs
