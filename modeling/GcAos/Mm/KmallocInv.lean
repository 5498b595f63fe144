import GcAos.Mm.Kmalloc

/-! The invariant of the kernel heap: the blocks tile the heap, and the free list is a doubly
linked list of exactly the free ones. -/

namespace GcAos.Mm
open Lib

namespace Heap

variable {h : Heap} {a b v x : ℕ} {f g : HeaderField}

/-! ## Headers -/

theorem apart_of_aligned (ha : 32 ∣ a) (hb : 32 ∣ b) (hne : a ≠ b) :
    a + blockHeader.size ≤ b ∨ b + blockHeader.size ≤ a := by
  show a + 32 ≤ b ∨ b + 32 ≤ a
  omega

theorem hdr_setHdr_self (hf : blockHeader.len f = 8) (hv : v < 2 ^ 64) :
    (h.setHdr a f v).hdr a f = v := by
  have hget : (h.setHdr a f v).hdr a f = v % 256 ^ blockHeader.len f := Layout.get_set_self
  rw [hget, hf]
  exact Nat.mod_eq_of_lt hv

theorem hdr_setHdr_word (ha : 32 ∣ a) (hx : 32 ∣ x) (hf : blockHeader.len f = 8) (hv : v < 2 ^ 64) :
    (h.setHdr a f v).hdr x g = if x = a ∧ g = f then v else h.hdr x g := by
  by_cases hxa : x = a
  · subst hxa
    by_cases hgf : g = f
    · subst hgf
      rw [if_pos ⟨rfl, rfl⟩, hdr_setHdr_self hf hv]
    · rw [if_neg fun hand => hgf hand.2]
      exact Layout.get_set_of_field_ne (Ne.symm hgf)
  · rw [if_neg fun hand => hxa hand.1]
    exact Layout.get_set_of_apart (apart_of_aligned ha hx (Ne.symm hxa))

theorem hdr_setHdr_half (hf : blockHeader.len f = 4) (hv : v < 2 ^ 32) :
    (h.setHdr a f v).hdr a f = v := by
  have hget : (h.setHdr a f v).hdr a f = v % 256 ^ blockHeader.len f := Layout.get_set_self
  rw [hget, hf]
  exact Nat.mod_eq_of_lt hv

theorem hdr_setHdr_field (hfg : g ≠ f) : (h.setHdr a f v).hdr a g = h.hdr a g :=
  Layout.get_set_of_field_ne (Ne.symm hfg)

theorem hdr_setHdr_ne (ha : 32 ∣ a) (hx : 32 ∣ x) (hne : x ≠ a) :
    (h.setHdr a f v).hdr x g = h.hdr x g :=
  Layout.get_set_of_apart (apart_of_aligned ha hx (Ne.symm hne))

theorem hdr_setUnlessNull (ha : 32 ∣ a) (hx : 32 ∣ x) (hx0 : x ≠ 0) (hf : blockHeader.len f = 8)
    (hv : v < 2 ^ 64) :
    (h.setUnlessNull a f v).hdr x g = if x = a ∧ g = f then v else h.hdr x g := by
  unfold setUnlessNull
  split
  · exact hdr_setHdr_word ha hx hf hv
  · rename_i ha0
    rw [if_neg]
    rintro ⟨rfl, _⟩
    exact ha0 hx0

theorem hdr_freeList {l : ℕ} : Heap.hdr { h with freeList := l } x g = h.hdr x g := rfl

theorem hdr_heapUsed {u : ℕ} : Heap.hdr { h with heapUsed := u } x g = h.hdr x g := rfl

theorem hdr_size_lt : h.hdr b .size < 2 ^ 64 := Layout.get_lt (L := blockHeader)

theorem hdr_next_lt : h.hdr b .next < 2 ^ 64 := Layout.get_lt (L := blockHeader)

theorem hdr_prev_lt : h.hdr b .prev < 2 ^ 64 := Layout.get_lt (L := blockHeader)

@[simp] theorem setHdr_freeList : (h.setHdr a f v).freeList = h.freeList := rfl
@[simp] theorem setHdr_heapUsed : (h.setHdr a f v).heapUsed = h.heapUsed := rfl
@[simp] theorem setHdr_heapStart : (h.setHdr a f v).heapStart = h.heapStart := rfl
@[simp] theorem setHdr_heapEnd : (h.setHdr a f v).heapEnd = h.heapEnd := rfl
@[simp] theorem setHdr_heapTotal : (h.setHdr a f v).heapTotal = h.heapTotal := rfl
@[simp] theorem setHdr_heapInitialized : (h.setHdr a f v).heapInitialized = h.heapInitialized := rfl

@[simp] theorem setUnlessNull_freeList : (h.setUnlessNull a f v).freeList = h.freeList := by
  unfold setUnlessNull
  split <;> rfl

@[simp] theorem setUnlessNull_heapUsed : (h.setUnlessNull a f v).heapUsed = h.heapUsed := by
  unfold setUnlessNull
  split <;> rfl

@[simp] theorem setUnlessNull_heapStart : (h.setUnlessNull a f v).heapStart = h.heapStart := by
  unfold setUnlessNull
  split <;> rfl

@[simp] theorem setUnlessNull_heapEnd : (h.setUnlessNull a f v).heapEnd = h.heapEnd := by
  unfold setUnlessNull
  split <;> rfl

@[simp] theorem setUnlessNull_heapTotal : (h.setUnlessNull a f v).heapTotal = h.heapTotal := by
  unfold setUnlessNull
  split <;> rfl

@[simp] theorem setUnlessNull_heapInitialized : (h.setUnlessNull a f v).heapInitialized = h.heapInitialized := by
  unfold setUnlessNull
  split <;> rfl

/-! ## The invariant -/

/-- The `next` pointers of the free list, with the list head as the pointer of `NULL`. -/
def nextOf (h : Heap) (x : ℕ) : ℕ := if x = 0 then h.freeList else h.hdr x .next

def prevOf (h : Heap) (x : ℕ) : ℕ := h.hdr x .prev

def usedSize (h : Heap) (b : ℕ) : ℕ := if h.hdr b .magic = blockMagicUsed then h.hdr b .size else 0

def usedSum (h : Heap) (blocks : List ℕ) : ℕ := (blocks.map h.usedSize).sum

structure Arena (h : Heap) : Prop where
  initialized : h.heapInitialized = true
  start_eq : h.heapStart = heapBase
  end_eq : h.heapEnd = heapBase + h.heapTotal
  total_le : h.heapTotal ≤ defaultHeapSize
  total_ge : minHeapSize ≤ h.heapTotal

/-- `h'` differs from `h` only in its memory, its free list and its counter. -/
structure SameArena (h h' : Heap) : Prop where
  initialized : h'.heapInitialized = h.heapInitialized
  start : h'.heapStart = h.heapStart
  stop : h'.heapEnd = h.heapEnd
  total : h'.heapTotal = h.heapTotal

theorem SameArena.arena {h' : Heap} (hs : SameArena h h') (ha : h.Arena) : h'.Arena where
  initialized := hs.initialized.trans ha.initialized
  start_eq := hs.start.trans ha.start_eq
  end_eq := by rw [hs.stop, hs.total, ha.end_eq]
  total_le := hs.total.trans_le ha.total_le
  total_ge := ha.total_ge.trans_eq hs.total.symm

structure Inv (h : Heap) (blocks free : List ℕ) : Prop where
  arena : h.Arena
  tiles : Tiles (h.hdr · .size) h.heapStart blocks h.heapEnd
  aligned : ∀ b ∈ blocks, 32 ∣ b
  header_fits : ∀ b ∈ blocks, blockHeader.size ≤ h.hdr b .size
  magic : ∀ b ∈ blocks, h.hdr b .magic = blockMagicFree ∨ h.hdr b .magic = blockMagicUsed
  ring : Ring 0 h.nextOf h.prevOf free
  mem_free : ∀ b, b ∈ free ↔ b ∈ blocks ∧ h.hdr b .magic = blockMagicFree
  used_eq : h.heapUsed = h.usedSum blocks

namespace Inv

variable {blocks free : List ℕ}

theorem block_bounds (hi : h.Inv blocks free) (hb : b ∈ blocks) :
    heapBase ≤ b ∧ b + h.hdr b .size ≤ heapBase + defaultHeapSize := by
  have hbounds := hi.tiles.mem_bounds hb
  have hstart := hi.arena.start_eq
  have hend := hi.arena.end_eq
  have htotal := hi.arena.total_le
  omega

theorem block_ne_zero (hi : h.Inv blocks free) (hb : b ∈ blocks) : b ≠ 0 := by
  have hlo := (hi.block_bounds hb).1
  have hbase : heapBase = 0x42000000 := rfl
  omega

theorem block_lt (hi : h.Inv blocks free) (hb : b ∈ blocks) :
    b + h.hdr b .size < 2 ^ 64 := by
  have hhi := (hi.block_bounds hb).2
  have hbase : heapBase = 0x42000000 := rfl
  have hdef : defaultHeapSize = 536870912 := rfl
  omega

theorem mem_blocks (hi : h.Inv blocks free) (hb : b ∈ free) : b ∈ blocks := ((hi.mem_free b).mp hb).1

theorem aligned_of_free (hi : h.Inv blocks free) (hb : b ∈ 0 :: free) : 32 ∣ b := by
  rcases List.mem_cons.mp hb with rfl | hb
  · exact dvd_zero 32
  · exact hi.aligned b (hi.mem_blocks hb)

theorem next_mem {ps qs : List ℕ} (hi : h.Inv blocks (ps ++ b :: qs)) :
    (qs ++ [0]).head? = some (h.hdr b .next) := by
  have hb0 := hi.block_ne_zero (hi.mem_blocks (b := b) (by simp))
  have hnext := hi.ring.next_eq
  rwa [nextOf, if_neg hb0] at hnext

theorem next_aligned {ps qs : List ℕ} (hi : h.Inv blocks (ps ++ b :: qs)) : 32 ∣ h.hdr b .next := by
  apply hi.aligned_of_free
  have hmem := List.mem_of_mem_head? hi.next_mem
  simp only [List.mem_append, List.mem_singleton] at hmem
  rcases hmem with hmem | hmem
  · simp [hmem]
  · simp [hmem]

theorem next_ne_self {ps qs : List ℕ} (hi : h.Inv blocks (ps ++ b :: qs)) : h.hdr b .next ≠ b := by
  intro heq
  have hmem := List.mem_of_mem_head? hi.next_mem
  have hb0 := hi.block_ne_zero (hi.mem_blocks (b := b) (by simp))
  rw [heq] at hmem
  have hqs : b ∈ qs := by simpa [hb0] using hmem
  have hnd : (b :: qs).Nodup :=
    hi.ring.nodup.sublist ((List.sublist_append_right ps _).cons 0)
  exact (List.nodup_cons.mp hnd).1 hqs

theorem notMem_inside (hi : h.Inv blocks free) (hb : b ∈ blocks) {n : ℕ} (hlo : b < n)
    (hhi : n < b + h.hdr b .size) : n ∉ blocks := by
  intro hn
  rcases hi.tiles.apart hb hn hlo.ne with happ | happ
  · omega
  · have hpos := (hi.tiles.mem_bounds hn).2.1
    omega

end Inv

/-! ## Splitting a block -/

theorem mem_append_cons_cons {x n : ℕ} (xs : List ℕ) (b : ℕ) (ys : List ℕ) :
    x ∈ xs ++ b :: n :: ys ↔ x = n ∨ x ∈ xs ++ b :: ys := by
  simp only [List.mem_append, List.mem_cons]
  tauto

theorem usedSum_congr {h' : Heap} {blocks : List ℕ}
    (hsize : ∀ x ∈ blocks, h'.hdr x .size = h.hdr x .size)
    (hmagic : ∀ x ∈ blocks, h'.hdr x .magic = h.hdr x .magic) :
    h'.usedSum blocks = h.usedSum blocks := by
  unfold usedSum
  congr 1
  apply List.map_congr_left
  intro x hx
  rw [usedSize, usedSize, hsize x hx, hmagic x hx]

theorem usedSum_append (xs ys : List ℕ) : h.usedSum (xs ++ ys) = h.usedSum xs + h.usedSum ys := by
  simp [usedSum]

theorem usedSum_cons (x : ℕ) (xs : List ℕ) : h.usedSum (x :: xs) = h.usedSize x + h.usedSum xs := by
  simp [usedSum]

theorem magicFree_ne_used : blockMagicFree ≠ blockMagicUsed := by decide

theorem usedSize_of_free (hf : h.hdr b .magic = blockMagicFree) : h.usedSize b = 0 := by
  rw [usedSize, if_neg]
  rw [hf]
  exact magicFree_ne_used

/-- What a split does: `n` is cut off the end of `b` and linked behind it, in front of `c`. -/
structure SplitEffect (h h' : Heap) (b total n c : ℕ) : Prop where
  arena : SameArena h h'
  freeList : h'.freeList = h.freeList
  heapUsed : h'.heapUsed = h.heapUsed
  new_size : h'.hdr n .size = h.hdr b .size - total
  new_magic : h'.hdr n .magic = blockMagicFree
  new_next : h'.hdr n .next = c
  new_prev : h'.hdr n .prev = b
  self_size : h'.hdr b .size = total
  self_magic : h'.hdr b .magic = h.hdr b .magic
  self_next : h'.hdr b .next = n
  self_prev : h'.hdr b .prev = h.hdr b .prev
  other : ∀ x, 32 ∣ x → x ≠ 0 → x ≠ b → x ≠ n → ∀ g, h'.hdr x g =
    if x = c ∧ g = .prev then n else h.hdr x g

theorem splitBlock_effect {total n c : ℕ} (hn : n = b + total) (hc : c = h.hdr b .next) (hb : 32 ∣ b)
    (hn32 : 32 ∣ n) (hc32 : 32 ∣ c) (hb0 : b ≠ 0) (hne : n ≠ b) (hcb : c ≠ b) (hcn : c ≠ n)
    (hlt : n < 2 ^ 64) (hsize : total + blockHeader.size + minAlloc ≤ h.hdr b .size) :
    SplitEffect h (splitBlock h b total) b total n c := by
  have hsz := hdr_size_lt (h := h) (b := b)
  have hclt : c < 2 ^ 64 := hc ▸ hdr_next_lt
  have hn0 : n ≠ 0 := by omega
  have heq : splitBlock h b total =
      let h₁ := ((((h.setHdr n .size (h.hdr b .size - total)).setHdr n .magic blockMagicFree).setHdr n
        .flags blockFlagFree).setHdr n .next c).setHdr n .prev b
      ((h₁.setUnlessNull c .prev n).setHdr b .size total).setHdr b .next n := by
    unfold splitBlock
    rw [if_pos hsize]
    simp (disch := first | assumption | omega) only [← hn, hdr_setHdr_ne, ← hc]
  have hxhdr : ∀ x, 32 ∣ x → x ≠ 0 → ∀ g, (splitBlock h b total).hdr x g =
      if x = b ∧ g = .next then n else if x = b ∧ g = .size then total
      else if x = c ∧ g = .prev then n else
        (((((h.setHdr n .size (h.hdr b .size - total)).setHdr n .magic blockMagicFree).setHdr n
          .flags blockFlagFree).setHdr n .next c).setHdr n .prev b).hdr x g := by
    intro x hx hx0 g
    have htotal : total < 2 ^ 64 := by omega
    rw [heq]
    dsimp only
    rw [hdr_setHdr_word hb hx rfl hlt, hdr_setHdr_word hb hx rfl htotal,
      hdr_setUnlessNull hc32 hx hx0 rfl hlt]
  have hnew : ∀ g, (splitBlock h b total).hdr n g =
      (((((h.setHdr n .size (h.hdr b .size - total)).setHdr n .magic blockMagicFree).setHdr n
        .flags blockFlagFree).setHdr n .next c).setHdr n .prev b).hdr n g := by
    intro g
    rw [hxhdr n hn32 hn0, if_neg (hne ·.1), if_neg (hne ·.1), if_neg (hcn.symm ·.1)]
  have hold : ∀ x, 32 ∣ x → x ≠ 0 → x ≠ n → ∀ g, (splitBlock h b total).hdr x g =
      if x = b ∧ g = .next then n else if x = b ∧ g = .size then total
      else if x = c ∧ g = .prev then n else h.hdr x g := by
    intro x hx hx0 hxn g
    simp only [hxhdr x hx hx0, hdr_setHdr_ne hn32 hx hxn]
  have hself := hold b hb hb0 hne.symm
  constructor
  · rw [heq]
    constructor <;> simp
  · rw [heq]
    simp only [setHdr_freeList, setUnlessNull_freeList]
  · rw [heq]
    simp only [setHdr_heapUsed, setUnlessNull_heapUsed]
  · have hlt' : h.hdr b .size - total < 2 ^ 64 := by omega
    rw [hnew, hdr_setHdr_field (by decide), hdr_setHdr_field (by decide),
      hdr_setHdr_field (by decide), hdr_setHdr_field (by decide), hdr_setHdr_self rfl hlt']
  · rw [hnew, hdr_setHdr_field (by decide), hdr_setHdr_field (by decide),
      hdr_setHdr_field (by decide), hdr_setHdr_half rfl (by decide)]
  · rw [hnew, hdr_setHdr_field (by decide), hdr_setHdr_self rfl hclt]
  · have hblt : b < 2 ^ 64 := by omega
    rw [hnew, hdr_setHdr_self rfl hblt]
  · simp [hself]
  · simp [hself]
  · simp [hself]
  · simp [hself, hcb.symm]
  · intro x hx hx0 hxb hxn g
    simp [hold x hx hx0 hxn, hxb]

section Split

variable {h' : Heap} {xs ys ps qs : List ℕ} {total n c : ℕ}
  (hi : h.Inv (xs ++ b :: ys) (ps ++ b :: qs)) (he : SplitEffect h h' b total n c)
  (hn : n = b + total) (hc : c = h.hdr b .next) (hpos : 0 < total)
  (hsize : total + blockHeader.size ≤ h.hdr b .size)

include hi hn hpos hsize in
theorem split_notMem : n ∉ xs ++ b :: ys := by
  have hhdr : blockHeader.size = 32 := rfl
  exact hi.notMem_inside (b := b) (by simp) (by omega) (by omega)

include hi he hn hpos hsize in
theorem split_other {x : ℕ} (hx : x ∈ xs ++ b :: ys) (hxb : x ≠ b) (g : HeaderField) :
    h'.hdr x g = if x = c ∧ g = .prev then n else h.hdr x g := by
  refine he.other x (hi.aligned x hx) (hi.block_ne_zero hx) hxb ?_ g
  rintro rfl
  exact split_notMem hi hn hpos hsize hx

include hi he hn hpos hsize in
theorem split_magic {x : ℕ} (hx : x ∈ xs ++ b :: ys) : h'.hdr x .magic = h.hdr x .magic := by
  by_cases hxb : x = b
  · rw [hxb, he.self_magic]
  · rw [split_other hi he hn hpos hsize hx hxb, if_neg (by simp)]

include hi he hn hpos hsize in
theorem split_size {x : ℕ} (hx : x ∈ xs ++ b :: ys) (hxb : x ≠ b) :
    h'.hdr x .size = h.hdr x .size := by
  rw [split_other hi he hn hpos hsize hx hxb, if_neg (by simp)]

include hi he hn hc hpos hsize in
theorem split_ring : Ring 0 h'.nextOf h'.prevOf (ps ++ b :: n :: qs) := by
  have hbf : b ∈ ps ++ b :: qs := by simp
  have hb0 := hi.block_ne_zero (hi.mem_blocks hbf)
  have hn0 : n ≠ 0 := by omega
  have hnf : n ∉ ps ++ b :: qs := fun hf => split_notMem hi hn hpos hsize (hi.mem_blocks hf)
  have hring : Ring 0 h.nextOf h.prevOf ((ps ++ [b]) ++ qs) := by simpa using hi.ring
  have hsplit : ps ++ b :: n :: qs = (ps ++ [b]) ++ n :: qs := by simp
  rw [hsplit]
  refine hring.link (p := b) (c := c) (by simpa [hn0] using hnf) ?_ (hc ▸ hi.next_mem)
    ?_ he.new_prev ?_ ?_
  · rw [← List.cons_append, List.getLast?_concat]
  · rw [nextOf, if_neg hn0, he.new_next]
  · intro x hx
    by_cases hx0 : x = 0
    · subst hx0
      rw [nextOf, if_pos rfl, he.freeList, if_neg (Ne.symm hb0), nextOf, if_pos rfl]
    · have hxf : x ∈ ps ++ b :: qs := by simpa [hx0] using hx
      rw [nextOf, if_neg hx0, nextOf, if_neg hx0]
      by_cases hxb : x = b
      · rw [if_pos hxb, hxb, he.self_next]
      · rw [if_neg hxb, split_other hi he hn hpos hsize (hi.mem_blocks hxf) hxb, if_neg (by simp)]
  · intro y hy
    have hyf : y ∈ ps ++ b :: qs := by simpa using hy
    by_cases hyb : y = b
    · have hbc : b ≠ c := hc ▸ hi.next_ne_self.symm
      rw [hyb, if_neg hbc, prevOf, he.self_prev, prevOf]
    · rw [prevOf, split_other hi he hn hpos hsize (hi.mem_blocks hyf) hyb, prevOf]
      simp only [and_true]

include hi he hn hc hpos hsize in
theorem split_inv (htotal : 32 ∣ total) (hfit : blockHeader.size ≤ total)
    (hrest : total + 2 * blockHeader.size ≤ h.hdr b .size) :
    h'.Inv (xs ++ b :: n :: ys) (ps ++ b :: n :: qs) := by
  have hhdr : blockHeader.size = 32 := rfl
  have hbb : b ∈ xs ++ b :: ys := by simp
  have hnb := split_notMem hi hn hpos hsize
  have hnf : n ∉ ps ++ b :: qs := fun hf => hnb (hi.mem_blocks hf)
  have hbfree := ((hi.mem_free b).mp (by simp)).2
  have hnd := List.nodup_middle.mp hi.tiles.nodup
  have hxb : ∀ x, x ∈ xs ∨ x ∈ ys → x ≠ b := by
    rintro x hx rfl
    exact (List.nodup_cons.mp hnd).1 (List.mem_append.mpr hx)
  have hold : ∀ x, x ∈ xs ∨ x ∈ ys → x ∈ xs ++ b :: ys := fun x hx =>
    List.mem_append.mpr (hx.imp_right (List.mem_cons_of_mem b))
  have hcase := fun x => mem_append_cons_cons (x := x) (n := n) xs b ys
  refine ⟨he.arena.arena hi.arena, ?_, ?_, ?_, ?_, split_ring hi he hn hc hpos hsize, ?_, ?_⟩
  · rw [he.arena.start, he.arena.stop]
    refine hi.tiles.split (by rw [he.self_size]; exact hn) (by rw [he.self_size]; exact hpos) ?_ ?_
      fun x hx => split_size hi he hn hpos hsize (hold x hx) (hxb x hx)
    · rw [he.new_size]
      omega
    · rw [he.self_size, he.new_size]
      omega
  · intro x hx
    rcases (hcase x).mp hx with rfl | hx
    · exact hn ▸ (hi.aligned b hbb).add htotal
    · exact hi.aligned x hx
  · intro x hx
    rcases (hcase x).mp hx with rfl | hx
    · rw [he.new_size]
      omega
    · by_cases hxb' : x = b
      · rw [hxb', he.self_size]
        exact hfit
      · rw [split_size hi he hn hpos hsize hx hxb']
        exact hi.header_fits x hx
  · intro x hx
    rcases (hcase x).mp hx with rfl | hx
    · exact .inl he.new_magic
    · rw [split_magic hi he hn hpos hsize hx]
      exact hi.magic x hx
  · intro x
    rw [mem_append_cons_cons, hcase, hi.mem_free]
    by_cases hxn : x = n
    · simp [hxn, he.new_magic]
    · simp only [hxn, false_or]
      constructor
      · rintro ⟨hx, hmagic⟩
        exact ⟨hx, by rw [split_magic hi he hn hpos hsize hx, hmagic]⟩
      · rintro ⟨hx, hmagic⟩
        exact ⟨hx, by rw [← split_magic hi he hn hpos hsize hx, hmagic]⟩
  · -- neither part of the split block is used, and nothing else changed
    have hpart : ∀ zs : List ℕ, (∀ x ∈ zs, x ∈ xs ∨ x ∈ ys) → h'.usedSum zs = h.usedSum zs := by
      intro zs hzs
      exact usedSum_congr
        (fun x hx => split_size hi he hn hpos hsize (hold x (hzs x hx)) (hxb x (hzs x hx)))
        (fun x hx => split_magic hi he hn hpos hsize (hold x (hzs x hx)))
    have hb' : h'.hdr b .magic = blockMagicFree := he.self_magic.trans hbfree
    rw [he.heapUsed, hi.used_eq]
    simp only [usedSum_append, usedSum_cons, usedSize_of_free hbfree, usedSize_of_free hb',
      usedSize_of_free he.new_magic, hpart xs fun x hx => .inl hx, hpart ys fun x hx => .inr hx,
      Nat.zero_add]

end Split

/-! ## Taking a block off the free list -/

structure TakeEffect (h h' : Heap) (b p c : ℕ) : Prop where
  arena : SameArena h h'
  freeList : h'.freeList = if p = 0 then c else h.freeList
  heapUsed : h'.heapUsed = (h.heapUsed + h.hdr b .size) % 2 ^ 64
  self_size : h'.hdr b .size = h.hdr b .size
  self_magic : h'.hdr b .magic = blockMagicUsed
  other : ∀ x, 32 ∣ x → x ≠ 0 → x ≠ b → ∀ g, h'.hdr x g =
    if x = c ∧ g = .prev then p else if x = p ∧ g = .next then c else h.hdr x g

theorem takeBlock_effect {p c : ℕ} (hc : c = h.hdr b .next) (hp32 : 32 ∣ p) (hb32 : 32 ∣ b)
    (hc32 : 32 ∣ c) (hb0 : b ≠ 0) (hbp : b ≠ p) (hbc : b ≠ c) (hplt : p < 2 ^ 64) :
    TakeEffect h (takeBlock h b p) b p c := by
  have hclt : c < 2 ^ 64 := hc ▸ hdr_next_lt
  -- the list pointers first, then the marks on the block itself
  obtain ⟨h₁, hh₁⟩ : ∃ h₁, h₁ = { h.setUnlessNull p .next c with
      freeList := if p = 0 then c else h.freeList } := ⟨_, rfl⟩
  have hx₁ : ∀ x, 32 ∣ x → x ≠ 0 → ∀ g, h₁.hdr x g =
      if x = p ∧ g = .next then c else h.hdr x g := by
    intro x hx hx0 g
    rw [hh₁, hdr_freeList, hdr_setUnlessNull hp32 hx hx0 rfl hclt]
  have hb₁ : ∀ g, h₁.hdr b g = h.hdr b g := by
    intro g
    rw [hx₁ b hb32 hb0, if_neg (hbp ·.1)]
  have heq : takeBlock h b p =
      let h₂ := (((h₁.setUnlessNull c .prev p).setHdr b .magic blockMagicUsed).setHdr b .flags 0).setHdr
        b .next 0
      { h₂ with heapUsed := (h₂.heapUsed + h₂.hdr b .size) % 2 ^ 64 } := by
    have hfirst : (if p ≠ 0 then h.setHdr p .next (h.hdr b .next)
        else { h with freeList := h.hdr b .next }) = h₁ := by
      rw [hh₁, ← hc, setUnlessNull]
      by_cases hp0 : p = 0
      · simp [hp0]
      · simp [hp0, Heap.setHdr]
    unfold takeBlock
    rw [hfirst]
    simp only [hb₁, ← hc]
  have hself : ∀ g, g ≠ .magic → g ≠ .flags → g ≠ .next →
      ((((h₁.setUnlessNull c .prev p).setHdr b .magic blockMagicUsed).setHdr b .flags 0).setHdr
        b .next 0).hdr b g = h.hdr b g := by
    intro g hg₁ hg₂ hg₃
    rw [hdr_setHdr_field hg₃, hdr_setHdr_field hg₂, hdr_setHdr_field hg₁,
      hdr_setUnlessNull hc32 hb32 hb0 rfl hplt, if_neg (hbc ·.1), hb₁]
  constructor
  · rw [heq, hh₁]
    constructor <;> simp
  · rw [heq]
    simp only [setHdr_freeList, setUnlessNull_freeList]
    rw [hh₁]
  · rw [heq]
    simp only [setHdr_heapUsed, setUnlessNull_heapUsed, hself .size (by decide) (by decide) (by decide)]
    rw [hh₁]
    simp only [setUnlessNull_heapUsed]
  · rw [heq]
    simp only [hdr_heapUsed]
    exact hself .size (by decide) (by decide) (by decide)
  · rw [heq]
    simp only [hdr_heapUsed]
    rw [hdr_setHdr_field (by decide), hdr_setHdr_field (by decide), hdr_setHdr_half rfl (by decide)]
  · intro x hx hx0 hxb g
    rw [heq]
    simp only [hdr_heapUsed, hdr_setHdr_ne hb32 hx hxb]
    rw [hdr_setUnlessNull hc32 hx hx0 rfl hplt, hx₁ x hx hx0]

theorem usedSum_le {blocks : List ℕ} {a e : ℕ} (ht : Tiles (h.hdr · .size) a blocks e) :
    a + h.usedSum blocks ≤ e := by
  induction blocks generalizing a with
  | nil => exact ht.le
  | cons b bs ih =>
    obtain ⟨rfl, _, hbs⟩ := ht
    have htail : b + h.hdr b .size + h.usedSum bs ≤ e := ih hbs
    rw [usedSum_cons, usedSize]
    split <;> omega

section Take

variable {h' : Heap} {blocks ps qs : List ℕ} {p c : ℕ}
  (hi : h.Inv blocks (ps ++ b :: qs)) (he : TakeEffect h h' b p c)
  (hc : c = h.hdr b .next) (hp : (0 :: ps).getLast? = some p)

include hi he in
theorem take_other (hx : x ∈ blocks) (hxb : x ≠ b) (g : HeaderField) :
    h'.hdr x g = if x = c ∧ g = .prev then p else if x = p ∧ g = .next then c else h.hdr x g :=
  he.other x (hi.aligned x hx) (hi.block_ne_zero hx) hxb g

include hi he in
theorem take_size (hx : x ∈ blocks) : h'.hdr x .size = h.hdr x .size := by
  by_cases hxb : x = b
  · rw [hxb, he.self_size]
  · simp [take_other hi he hx hxb]

include hi he in
theorem take_magic (hx : x ∈ blocks) (hxb : x ≠ b) : h'.hdr x .magic = h.hdr x .magic := by
  simp [take_other hi he hx hxb]

include hi he hc hp in
theorem take_ring : Ring 0 h'.nextOf h'.prevOf (ps ++ qs) := by
  have hb0 := hi.block_ne_zero (hi.mem_blocks (b := b) (by simp))
  have hnext : h.nextOf b = c := by rw [nextOf, if_neg hb0, hc]
  have hprev : h.prevOf b = p := by
    have := hi.ring.prev_eq.symm.trans hp
    simpa using this
  have hnd := List.nodup_middle.mp (List.nodup_cons.mp hi.ring.nodup).2
  have hmem : ∀ x ∈ ps ++ qs, x ∈ blocks ∧ x ≠ b := by
    intro x hx
    refine ⟨hi.mem_blocks ?_, ?_⟩
    · exact List.mem_append.mpr ((List.mem_append.mp hx).imp_right (List.mem_cons_of_mem b))
    · rintro rfl
      exact (List.nodup_cons.mp hnd).1 hx
  refine hi.ring.unlink ?_ ?_
  · intro x hx
    rw [hnext, hprev]
    by_cases hx0 : x = 0
    · subst hx0
      rw [nextOf, if_pos rfl, he.freeList, nextOf, if_pos rfl]
      simp only [eq_comm]
    · have hxm := hmem x (by simpa [hx0] using hx)
      rw [nextOf, if_neg hx0, nextOf, if_neg hx0, take_other hi he hxm.1 hxm.2]
      simp
  · intro y hy
    have hym := hmem y hy
    rw [hnext, hprev, prevOf, take_other hi he hym.1 hym.2]
    simp [prevOf]

include hi he hc hp in
theorem take_inv : h'.Inv blocks (ps ++ qs) := by
  have hbf : b ∈ ps ++ b :: qs := by simp
  have hbb := hi.mem_blocks hbf
  have hbfree := ((hi.mem_free b).mp hbf).2
  refine ⟨he.arena.arena hi.arena, ?_, hi.aligned, ?_, ?_, take_ring hi he hc hp, ?_, ?_⟩
  · rw [he.arena.start, he.arena.stop]
    exact hi.tiles.congr fun x hx => take_size hi he hx
  · intro x hx
    rw [take_size hi he hx]
    exact hi.header_fits x hx
  · intro x hx
    by_cases hxb : x = b
    · exact .inr (hxb ▸ he.self_magic)
    · rw [take_magic hi he hx hxb]
      exact hi.magic x hx
  · intro x
    have hnd := (List.nodup_cons.mp hi.ring.nodup).2
    have hxfree : x ∈ ps ++ qs ↔ x ∈ ps ++ b :: qs ∧ x ≠ b := by
      have := (List.nodup_cons.mp (List.nodup_middle.mp hnd)).1
      constructor
      · intro hx
        refine ⟨List.mem_append.mpr ((List.mem_append.mp hx).imp_right (List.mem_cons_of_mem b)), ?_⟩
        rintro rfl
        exact this hx
      · rintro ⟨hx, hxb⟩
        simpa [hxb] using hx
    rw [hxfree, hi.mem_free]
    constructor
    · rintro ⟨⟨hx, hmagic⟩, hxb⟩
      exact ⟨hx, by rw [take_magic hi he hx hxb, hmagic]⟩
    · rintro ⟨hx, hmagic⟩
      have hxb : x ≠ b := by
        rintro rfl
        exact magicFree_ne_used (hmagic.symm.trans he.self_magic)
      exact ⟨⟨hx, by rw [← take_magic hi he hx hxb, hmagic]⟩, hxb⟩
  · -- the counter grows by the size of `b`, and cannot wrap below the end of the heap
    obtain ⟨xs, ys, rfl⟩ := List.append_of_mem hbb
    have hnd := (List.nodup_cons.mp (List.nodup_middle.mp hi.tiles.nodup)).1
    have hpart : ∀ zs : List ℕ, (∀ x ∈ zs, x ∈ xs ++ ys) → h'.usedSum zs = h.usedSum zs := by
      intro zs hzs
      have hold : ∀ x ∈ zs, x ∈ xs ++ b :: ys := fun x hx => List.mem_append.mpr
        ((List.mem_append.mp (hzs x hx)).imp_right (List.mem_cons_of_mem b))
      refine usedSum_congr (fun x hx => take_size hi he (hold x hx)) fun x hx =>
        take_magic hi he (hold x hx) ?_
      rintro rfl
      exact hnd (hzs x hx)
    have hself : h'.usedSize b = h.hdr b .size := by
      rw [usedSize, if_pos he.self_magic, he.self_size]
    have htotal : h'.usedSum (xs ++ b :: ys) = h.usedSum (xs ++ b :: ys) + h.hdr b .size := by
      simp only [usedSum_append, usedSum_cons, usedSize_of_free hbfree, hself,
        hpart xs fun x hx => List.mem_append_left _ hx, hpart ys fun x hx => List.mem_append_right _ hx]
      omega
    have hbound := usedSum_le (hi.tiles.congr fun x hx => take_size hi he hx)
    have hend := hi.arena.end_eq
    have hle := hi.arena.total_le
    have hbase : heapBase = 0x42000000 := rfl
    have hdef : defaultHeapSize = 536870912 := rfl
    rw [he.heapUsed, hi.used_eq, htotal, Nat.mod_eq_of_lt]
    omega

end Take

/-! ## Putting a block back -/

structure PushEffect (h h' : Heap) (b : ℕ) : Prop where
  arena : SameArena h h'
  freeList : h'.freeList = b
  heapUsed : h'.heapUsed = (h.heapUsed + 2 ^ 64 - h.hdr b .size) % 2 ^ 64
  self_size : h'.hdr b .size = h.hdr b .size
  self_magic : h'.hdr b .magic = blockMagicFree
  self_next : h'.hdr b .next = h.freeList
  self_prev : h'.hdr b .prev = 0
  other : ∀ x, 32 ∣ x → x ≠ 0 → x ≠ b → ∀ g, h'.hdr x g =
    if x = h.freeList ∧ g = .prev then b else h.hdr x g

theorem pushFree_effect (hb32 : 32 ∣ b) (hl32 : 32 ∣ h.freeList) (hb0 : b ≠ 0) (hbl : b ≠ h.freeList)
    (hblt : b < 2 ^ 64) (hllt : h.freeList < 2 ^ 64) : PushEffect h (pushFree h b) b := by
  obtain ⟨h₁, hh₁⟩ : ∃ h₁, h₁ = Heap.setHdr (Heap.setHdr (Heap.setHdr (Heap.setHdr { h with
      heapUsed := (h.heapUsed + 2 ^ 64 - h.hdr b .size) % 2 ^ 64 } b .magic blockMagicFree) b .flags
      blockFlagFree) b .next h.freeList) b .prev 0 := ⟨_, rfl⟩
  have heq : pushFree h b = { h₁.setUnlessNull h.freeList .prev b with freeList := b } := by
    rw [hh₁]
    rfl
  have hself : ∀ g, (pushFree h b).hdr b g = h₁.hdr b g := by
    intro g
    rw [heq, hdr_freeList, hdr_setUnlessNull hl32 hb32 hb0 rfl hblt, if_neg (hbl ·.1)]
  constructor
  · rw [heq, hh₁]
    constructor <;> simp
  · rw [heq]
  · rw [heq, hh₁]
    simp
  · rw [hself, hh₁, hdr_setHdr_field (by decide), hdr_setHdr_field (by decide),
      hdr_setHdr_field (by decide), hdr_setHdr_field (by decide), hdr_heapUsed]
  · rw [hself, hh₁, hdr_setHdr_field (by decide), hdr_setHdr_field (by decide),
      hdr_setHdr_field (by decide), hdr_setHdr_half rfl (by decide)]
  · rw [hself, hh₁, hdr_setHdr_field (by decide), hdr_setHdr_self rfl hllt]
  · rw [hself, hh₁, hdr_setHdr_self rfl (by decide)]
  · intro x hx hx0 hxb g
    rw [heq, hdr_freeList, hdr_setUnlessNull hl32 hx hx0 rfl hblt, hh₁, hdr_setHdr_ne hb32 hx hxb,
      hdr_setHdr_ne hb32 hx hxb, hdr_setHdr_ne hb32 hx hxb, hdr_setHdr_ne hb32 hx hxb, hdr_heapUsed]

section Push

variable {h' : Heap} {blocks free : List ℕ} (hi : h.Inv blocks free) (he : PushEffect h h' b)
  (hb : b ∈ blocks) (hused : h.hdr b .magic = blockMagicUsed)

include hi in
theorem Inv.freeList_mem : h.freeList ∈ 0 :: free := by
  have hmem := List.mem_of_mem_head? hi.ring.head_eq
  rw [nextOf, if_pos rfl] at hmem
  simpa [or_comm] using hmem

include hi hused in
theorem push_notMem : b ∉ free := by
  intro hf
  exact magicFree_ne_used (((hi.mem_free b).mp hf).2.symm.trans hused)

include hi he in
theorem push_other (hx : x ∈ blocks) (hxb : x ≠ b) (g : HeaderField) :
    h'.hdr x g = if x = h.freeList ∧ g = .prev then b else h.hdr x g :=
  he.other x (hi.aligned x hx) (hi.block_ne_zero hx) hxb g

include hi he in
theorem push_size (hx : x ∈ blocks) : h'.hdr x .size = h.hdr x .size := by
  by_cases hxb : x = b
  · rw [hxb, he.self_size]
  · simp [push_other hi he hx hxb]

include hi he in
theorem push_magic (hx : x ∈ blocks) (hxb : x ≠ b) : h'.hdr x .magic = h.hdr x .magic := by
  simp [push_other hi he hx hxb]

include hi he hb hused in
theorem push_ring : Ring 0 h'.nextOf h'.prevOf (b :: free) := by
  have hb0 := hi.block_ne_zero hb
  have hbf := push_notMem hi hused
  have hhead : h.nextOf 0 = h.freeList := if_pos rfl
  refine hi.ring.push (by simp [hb0, hbf]) ?_ he.self_prev ?_ ?_
  · rw [nextOf, if_neg hb0, he.self_next, hhead]
  · intro x hx
    by_cases hx0 : x = 0
    · rw [if_pos hx0, nextOf, if_pos hx0, he.freeList]
    · have hxf : x ∈ free := by simpa [hx0] using hx
      have hxb : x ≠ b := fun heq => hbf (heq ▸ hxf)
      rw [if_neg hx0, nextOf, if_neg hx0, nextOf, if_neg hx0,
        push_other hi he (hi.mem_blocks hxf) hxb, if_neg (by simp)]
  · intro y hy
    have hyb : y ≠ b := fun heq => hbf (heq ▸ hy)
    rw [prevOf, push_other hi he (hi.mem_blocks hy) hyb, prevOf, hhead]
    simp

include hi he hb hused in
theorem push_inv : h'.Inv blocks (b :: free) := by
  refine ⟨he.arena.arena hi.arena, ?_, hi.aligned, ?_, ?_, push_ring hi he hb hused, ?_, ?_⟩
  · rw [he.arena.start, he.arena.stop]
    exact hi.tiles.congr fun x hx => push_size hi he hx
  · intro x hx
    rw [push_size hi he hx]
    exact hi.header_fits x hx
  · intro x hx
    by_cases hxb : x = b
    · exact .inl (hxb ▸ he.self_magic)
    · rw [push_magic hi he hx hxb]
      exact hi.magic x hx
  · intro x
    by_cases hxb : x = b
    · simp [hxb, hb, he.self_magic]
    · rw [List.mem_cons, hi.mem_free]
      simp only [hxb, false_or]
      constructor
      · rintro ⟨hx, hmagic⟩
        exact ⟨hx, by rw [push_magic hi he hx hxb, hmagic]⟩
      · rintro ⟨hx, hmagic⟩
        exact ⟨hx, by rw [← push_magic hi he hx hxb, hmagic]⟩
  · -- the counter covers at least the block given back
    obtain ⟨xs, ys, rfl⟩ := List.append_of_mem hb
    have hnd := (List.nodup_cons.mp (List.nodup_middle.mp hi.tiles.nodup)).1
    have hpart : ∀ zs : List ℕ, (∀ x ∈ zs, x ∈ xs ++ ys) → h'.usedSum zs = h.usedSum zs := by
      intro zs hzs
      have hold : ∀ x ∈ zs, x ∈ xs ++ b :: ys := fun x hx => List.mem_append.mpr
        ((List.mem_append.mp (hzs x hx)).imp_right (List.mem_cons_of_mem b))
      refine usedSum_congr (fun x hx => push_size hi he (hold x hx)) fun x hx =>
        push_magic hi he (hold x hx) ?_
      rintro rfl
      exact hnd (hzs x hx)
    have hself : h.usedSize b = h.hdr b .size := by rw [usedSize, if_pos hused]
    have htotal : h.usedSum (xs ++ b :: ys) = h'.usedSum (xs ++ b :: ys) + h.hdr b .size := by
      simp only [usedSum_append, usedSum_cons, usedSize_of_free he.self_magic, hself,
        hpart xs fun x hx => List.mem_append_left _ hx, hpart ys fun x hx => List.mem_append_right _ hx]
      omega
    have hbound := usedSum_le hi.tiles
    have hend := hi.arena.end_eq
    have hle := hi.arena.total_le
    have hbase : heapBase = 0x42000000 := rfl
    have hdef : defaultHeapSize = 536870912 := rfl
    rw [he.heapUsed, hi.used_eq]
    omega

end Push

/-! ## Joining two free blocks -/

structure CoalesceEffect (h h' : Heap) (b n p c : ℕ) : Prop where
  arena : SameArena h h'
  freeList : h'.freeList = h.freeList
  heapUsed : h'.heapUsed = h.heapUsed
  other : ∀ x, 32 ∣ x → x ≠ 0 → x ≠ n → ∀ g, h'.hdr x g =
    if x = b ∧ g = .size then h.hdr b .size + h.hdr n .size
    else if x = c ∧ g = .prev then p else if x = p ∧ g = .next then c else h.hdr x g

theorem coalesce_effect {n p c : ℕ} (hn : n = b + h.hdr b .size) (hp : p = h.hdr n .prev)
    (hc : c = h.hdr n .next) (hb32 : 32 ∣ b) (hn32 : 32 ∣ n) (hp32 : 32 ∣ p) (hc32 : 32 ∣ c)
    (hb0 : b ≠ 0) (hn0 : n ≠ 0) (hnp : n ≠ p)
    (hsum : h.hdr b .size + h.hdr n .size < 2 ^ 64) (hend : n < h.heapEnd)
    (hfree : h.hdr n .magic = blockMagicFree) : CoalesceEffect h (coalesce h b) b n p c := by
  have hplt : p < 2 ^ 64 := hp ▸ hdr_prev_lt
  have hclt : c < 2 ^ 64 := hc ▸ hdr_next_lt
  obtain ⟨h₂, hh₂⟩ : ∃ h₂, h₂ = (h.setUnlessNull p .next c).setUnlessNull c .prev p := ⟨_, rfl⟩
  have hx₂ : ∀ x, 32 ∣ x → x ≠ 0 → ∀ g, h₂.hdr x g =
      if x = c ∧ g = .prev then p else if x = p ∧ g = .next then c else h.hdr x g := by
    intro x hx hx0 g
    rw [hh₂, hdr_setUnlessNull hc32 hx hx0 rfl hplt, hdr_setUnlessNull hp32 hx hx0 rfl hclt]
  have hnhdr : ∀ g, (h.setUnlessNull p .next c).hdr n g = h.hdr n g := by
    intro g
    rw [hdr_setUnlessNull hp32 hn32 hn0 rfl hclt, if_neg (hnp ·.1)]
  have hbsize : h₂.hdr b .size = h.hdr b .size := by simp [hx₂ b hb32 hb0]
  have hnsize : h₂.hdr n .size = h.hdr n .size := by simp [hx₂ n hn32 hn0]
  have heq : coalesce h b =
      (h₂.setHdr b .size (h.hdr b .size + h.hdr n .size)).setHdr n .magic 0 := by
    unfold coalesce
    simp only [← hn]
    rw [if_pos ⟨hend, hfree⟩]
    simp only [← hp, ← hc, hnhdr, ← hh₂, hbsize, hnsize]
  constructor
  · rw [heq, hh₂]
    constructor <;> simp
  · rw [heq, hh₂]
    simp
  · rw [heq, hh₂]
    simp
  · intro x hx hx0 hxn g
    rw [heq, hdr_setHdr_ne hn32 hx hxn, hdr_setHdr_word hb32 hx rfl hsum, hx₂ x hx hx0]

section Coalesce

variable {h' : Heap} {xs ys ps qs : List ℕ} {n p c : ℕ}
  (hi : h.Inv (xs ++ b :: n :: ys) (ps ++ n :: qs)) (he : CoalesceEffect h h' b n p c)
  (hp : p = h.hdr n .prev) (hc : c = h.hdr n .next) (hp0 : p ≠ 0)
  (hbfree : h.hdr b .magic = blockMagicFree)

include hi he in
theorem coalesce_other (hx : x ∈ xs ++ b :: n :: ys) (hxn : x ≠ n) (g : HeaderField) :
    h'.hdr x g = if x = b ∧ g = .size then h.hdr b .size + h.hdr n .size
      else if x = c ∧ g = .prev then p else if x = p ∧ g = .next then c else h.hdr x g :=
  he.other x (hi.aligned x hx) (hi.block_ne_zero hx) hxn g

include hi he in
theorem coalesce_magic (hx : x ∈ xs ++ b :: n :: ys) (hxn : x ≠ n) :
    h'.hdr x .magic = h.hdr x .magic := by
  simp [coalesce_other hi he hx hxn]

include hi he in
theorem coalesce_size (hx : x ∈ xs ++ b :: n :: ys) (hxn : x ≠ n) (hxb : x ≠ b) :
    h'.hdr x .size = h.hdr x .size := by
  simp [coalesce_other hi he hx hxn, hxb]

include hi he hp hc hp0 in
theorem coalesce_ring : Ring 0 h'.nextOf h'.prevOf (ps ++ qs) := by
  have hn0 := hi.block_ne_zero (hi.mem_blocks (b := n) (by simp))
  have hnext : h.nextOf n = c := by rw [nextOf, if_neg hn0, hc]
  have hprev : h.prevOf n = p := hp.symm
  have hnd := List.nodup_middle.mp (List.nodup_cons.mp hi.ring.nodup).2
  have hmem : ∀ x ∈ ps ++ qs, x ∈ xs ++ b :: n :: ys ∧ x ≠ n := by
    intro x hx
    refine ⟨hi.mem_blocks ?_, ?_⟩
    · exact List.mem_append.mpr ((List.mem_append.mp hx).imp_right (List.mem_cons_of_mem n))
    · rintro rfl
      exact (List.nodup_cons.mp hnd).1 hx
  refine hi.ring.unlink ?_ ?_
  · intro x hx
    rw [hnext, hprev]
    by_cases hx0 : x = 0
    · rw [nextOf, if_pos hx0, he.freeList, nextOf, if_pos hx0, if_neg (hx0 ▸ hp0.symm)]
    · have hxm := hmem x (by simpa [hx0] using hx)
      rw [nextOf, if_neg hx0, nextOf, if_neg hx0, coalesce_other hi he hxm.1 hxm.2]
      simp
  · intro y hy
    have hym := hmem y hy
    rw [hnext, hprev, prevOf, coalesce_other hi he hym.1 hym.2]
    simp [prevOf]

include hi he hp hc hp0 hbfree in
theorem coalesce_inv : h'.Inv (xs ++ b :: ys) (ps ++ qs) := by
  have hnfree := ((hi.mem_free n).mp (by simp)).2
  have hnd := hi.tiles.nodup
  have hold : ∀ x ∈ xs ++ b :: ys, x ∈ xs ++ b :: n :: ys := fun x hx =>
    (mem_append_cons_cons xs b ys).mpr (.inr hx)
  have hnx : ∀ x ∈ xs ++ b :: ys, x ≠ n := by
    rintro x hx rfl
    have hsplit : xs ++ b :: x :: ys = (xs ++ [b]) ++ x :: ys := by simp
    rw [hsplit] at hnd
    exact (List.nodup_cons.mp (List.nodup_middle.mp hnd)).1 (by simpa using hx)
  have hxb : ∀ x, x ∈ xs ∨ x ∈ ys → x ≠ b := by
    rintro x hx rfl
    refine (List.nodup_cons.mp (List.nodup_middle.mp hnd)).1 (List.mem_append.mpr ?_)
    exact hx.imp_right (List.mem_cons_of_mem n)
  have hin : ∀ x, x ∈ xs ∨ x ∈ ys → x ∈ xs ++ b :: ys := fun x hx =>
    List.mem_append.mpr (hx.imp_right (List.mem_cons_of_mem b))
  have hbin : b ∈ xs ++ b :: ys := by simp
  have hbsize : h'.hdr b .size = h.hdr b .size + h.hdr n .size := by
    simp [coalesce_other hi he (hold b hbin) (hnx b hbin)]
  have hsize : ∀ x, x ∈ xs ∨ x ∈ ys → h'.hdr x .size = h.hdr x .size := fun x hx =>
    coalesce_size hi he (hold x (hin x hx)) (hnx x (hin x hx)) (hxb x hx)
  have hmagic : ∀ x ∈ xs ++ b :: ys, h'.hdr x .magic = h.hdr x .magic := fun x hx =>
    coalesce_magic hi he (hold x hx) (hnx x hx)
  refine ⟨he.arena.arena hi.arena, ?_, fun x hx => hi.aligned x (hold x hx), ?_, ?_,
    coalesce_ring hi he hp hc hp0, ?_, ?_⟩
  · rw [he.arena.start, he.arena.stop]
    exact hi.tiles.merge hbsize hsize
  · intro x hx
    have hfit := hi.header_fits x (hold x hx)
    by_cases hxb' : x = b
    · rw [hxb', hbsize]
      rw [hxb'] at hfit
      omega
    · rwa [coalesce_size hi he (hold x hx) (hnx x hx) hxb']
  · intro x hx
    rw [hmagic x hx]
    exact hi.magic x (hold x hx)
  · intro x
    have hndf := (List.nodup_cons.mp (List.nodup_middle.mp (List.nodup_cons.mp hi.ring.nodup).2)).1
    constructor
    · intro hx
      have hxf : x ∈ ps ++ n :: qs :=
        List.mem_append.mpr ((List.mem_append.mp hx).imp_right (List.mem_cons_of_mem n))
      obtain ⟨hxm, hxfree⟩ := (hi.mem_free x).mp hxf
      have hxn : x ≠ n := fun heq => hndf (heq ▸ hx)
      have hxin : x ∈ xs ++ b :: ys := ((mem_append_cons_cons xs b ys).mp hxm).resolve_left hxn
      exact ⟨hxin, (hmagic x hxin).trans hxfree⟩
    · rintro ⟨hx, hxfree⟩
      rw [hmagic x hx] at hxfree
      have hxf := (hi.mem_free x).mpr ⟨hold x hx, hxfree⟩
      simpa [hnx x hx] using hxf
  · have hpart : ∀ zs : List ℕ, (∀ x ∈ zs, x ∈ xs ∨ x ∈ ys) → h'.usedSum zs = h.usedSum zs := by
      intro zs hzs
      exact usedSum_congr (fun x hx => hsize x (hzs x hx)) fun x hx => hmagic x (hin x (hzs x hx))
    have hb' : h'.hdr b .magic = blockMagicFree := (hmagic b hbin).trans hbfree
    rw [he.heapUsed, hi.used_eq]
    simp only [usedSum_append, usedSum_cons, usedSize_of_free hbfree, usedSize_of_free hb',
      usedSize_of_free hnfree, hpart xs fun x hx => .inl hx, hpart ys fun x hx => .inr hx,
      Nat.zero_add]

end Coalesce

end Heap

end GcAos.Mm
