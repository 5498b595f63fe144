import GcAos.Mm.KmallocInv

/-! What `_kmalloc` and `kfree` do to a heap in its invariant: the one block that is handed out or
given back, and the bytes that are left alone. -/

namespace GcAos.Mm
open Lib

variable {h h' : Heap} {b x : ℕ} {blocks free : List ℕ}

namespace Heap

/-! ## Headers and bytes -/

theorem bytes_of_hdr (hx : ∀ g, h'.hdr x g = h.hdr x g) {i : ℕ} (hlo : x ≤ i)
    (hhi : i < x + blockHeader.size) : h'.mem i = h.mem i := by
  obtain ⟨j, rfl⟩ := Nat.exists_eq_add_of_le hlo
  have hj : j < 32 := Nat.lt_of_add_lt_add_left hhi
  by_cases h8 : j < 8
  · exact Layout.bytes_of_get (hx .size) (Nat.zero_le j) h8
  · by_cases h12 : j < 12
    · exact Layout.bytes_of_get (hx .magic) (not_lt.mp h8) h12
    · by_cases h16 : j < 16
      · exact Layout.bytes_of_get (hx .flags) (not_lt.mp h12) h16
      · by_cases h24 : j < 24
        · exact Layout.bytes_of_get (hx .next) (not_lt.mp h16) h24
        · exact Layout.bytes_of_get (hx .prev) (not_lt.mp h24) hj

/-- The payload of the block `d` has the same bytes in both heaps. -/
def SamePayload (h h' : Heap) (d : ℕ) : Prop :=
  ∀ i, blockData d ≤ i → i < d + h.hdr d .size → h'.mem i = h.mem i

theorem Inv.samePayload {d : ℕ} (hi : h.Inv blocks free) (hd : d ∈ blocks)
    (hcell : ∀ x, 32 ∣ x → x ≠ 0 → x ∉ blocks → d < x → x < d + h.hdr d .size →
      ∀ g, h'.hdr x g = h.hdr x g) : SamePayload h h' d := by
  intro i hlo hhi
  have hd32 := hi.aligned d hd
  have hhdr : blockHeader.size = 32 := rfl
  unfold blockData at hlo
  have hx32 : 32 ∣ i / 32 * 32 := Nat.dvd_mul_left _ _
  have hlo' : d < i / 32 * 32 := by omega
  have hhi' : i / 32 * 32 < d + h.hdr d .size := by omega
  exact bytes_of_hdr (hcell _ hx32 (by omega) (hi.notMem_inside hd hlo' hhi') hlo' hhi')
    (by omega) (by omega)

/-! ## Payload writes -/

theorem hdr_of_payload {h' : Heap} (hi : h.Inv blocks free) (hb : b ∈ blocks) (hx : x ∈ blocks)
    (hmem : ∀ i, i < blockData b ∨ b + h.hdr b .size ≤ i → h'.mem i = h.mem i) (g : HeaderField) :
    h'.hdr x g = h.hdr x g := by
  apply Layout.get_congr
  intro i hi'
  apply hmem
  have hfit := hi.header_fits x hx
  unfold blockData
  by_cases hxb : x = b
  · omega
  · rcases hi.tiles.apart hb hx (Ne.symm hxb) with happ | happ <;> omega

theorem Inv.payload {h' : Heap} (hi : h.Inv blocks free) (hb : b ∈ blocks) (ha : SameArena h h')
    (hlist : h'.freeList = h.freeList) (hused : h'.heapUsed = h.heapUsed)
    (hmem : ∀ i, i < blockData b ∨ b + h.hdr b .size ≤ i → h'.mem i = h.mem i) :
    h'.Inv blocks free := by
  have hhdr := fun x hx g => hdr_of_payload (x := x) (g := g) hi hb hx hmem
  have hring : Ring 0 h'.nextOf h'.prevOf free := by
    refine ⟨chain_relink hi.ring.chain ?_ ?_, hi.ring.nodup⟩
    · intro y hy
      by_cases hy0 : y = 0
      · rw [nextOf, if_pos hy0, nextOf, if_pos hy0, hlist]
      · have hyf : y ∈ free := by
          have := List.mem_of_mem_dropLast hy
          simpa [hy0] using this
        rw [nextOf, if_neg hy0, nextOf, if_neg hy0, hhdr y (hi.mem_blocks hyf)]
    · intro y hy hy0
      have hyf : y ∈ free := by simpa [hy0] using hy
      exact hhdr y (hi.mem_blocks hyf) .prev
  refine ⟨ha.arena hi.arena, ?_, hi.aligned, ?_, ?_, hring, ?_, ?_⟩
  · rw [ha.start, ha.stop]
    exact hi.tiles.congr fun x hx => hhdr x hx .size
  · intro x hx
    rw [hhdr x hx]
    exact hi.header_fits x hx
  · intro x hx
    rw [hhdr x hx]
    exact hi.magic x hx
  · intro x
    rw [hi.mem_free]
    exact and_congr_right fun hx => by rw [hhdr x hx]
  · rw [hused, hi.used_eq]
    exact (usedSum_congr (fun x hx => hhdr x hx .size) fun x hx => hhdr x hx .magic).symm

/-! ## The search -/

theorem Inv.free_length_lt (hi : h.Inv blocks free) : free.length < h.heapTotal := by
  have hsub : free.length ≤ blocks.length :=
    ((List.nodup_cons.mp hi.ring.nodup).2.subperm fun x hx => hi.mem_blocks hx).length_le
  have hlen : h.heapStart + 32 * blocks.length ≤ h.heapEnd := hi.tiles.length_mul_le hi.header_fits
  have hmin : minHeapSize = 67108864 := rfl
  have hstart := hi.arena.start_eq
  have hend := hi.arena.end_eq
  have hge := hi.arena.total_ge
  omega

theorem firstFit_spec (total : ℕ) {fuel p : ℕ} {ps qs : List ℕ} (hi : h.Inv blocks (ps ++ qs))
    (hp : (0 :: ps).getLast? = some p) (hb : (qs ++ [0]).head? = some b) (hfuel : qs.length < fuel) :
    firstFit h total fuel b p = some .exhausted ∧ (∀ x ∈ qs, h.hdr x .size < total) ∨
      ∃ ps' qs' c p', ps ++ qs = ps' ++ c :: qs' ∧ (0 :: ps').getLast? = some p' ∧
        total ≤ h.hdr c .size ∧ firstFit h total fuel b p = some (.fit c p') := by
  induction fuel generalizing b p ps qs with
  | zero => omega
  | succ fuel ih =>
    cases qs with
    | nil =>
      obtain rfl : 0 = b := by simpa using hb
      exact .inl ⟨by rw [firstFit, if_pos rfl], by simp⟩
    | cons c qs =>
      obtain rfl : c = b := by simpa using hb
      have hcf : c ∈ ps ++ c :: qs := by simp
      have hc0 := hi.block_ne_zero (hi.mem_blocks hcf)
      have hmagic := ((hi.mem_free c).mp hcf).2
      rw [firstFit, if_neg hc0, if_neg (not_not.mpr hmagic)]
      by_cases hfit : total ≤ h.hdr c .size
      · rw [if_pos hfit]
        exact .inr ⟨ps, qs, c, p, rfl, hp, hfit, rfl⟩
      · rw [if_neg hfit]
        have hsplit : ps ++ c :: qs = (ps ++ [c]) ++ qs := by simp
        have hlast : (0 :: (ps ++ [c])).getLast? = some c := by
          rw [← List.cons_append, List.getLast?_concat]
        rw [hsplit]
        rcases ih (hsplit ▸ hi) hlast hi.next_mem (by simpa using hfuel) with ⟨heq, hall⟩ | hfound
        · refine .inl ⟨heq, ?_⟩
          intro x hx
          rcases List.mem_cons.mp hx with rfl | hx
          · omega
          · exact hall x hx
        · exact .inr hfound

end Heap

theorem alignUp_minAlloc {v : ℕ} (hv : v + 31 < 2 ^ 64) : alignUp v minAlloc = (v + 31) / 32 * 32 := by
  have hmask : 2 ^ 64 - 1 - (minAlloc - 1) = 2 ^ 64 - 2 ^ 5 := by decide
  have hsum : (v + minAlloc - 1) % 2 ^ 64 = v + 31 := Nat.mod_eq_of_lt hv
  rw [alignUp, hmask, hsum]
  exact and_high_mask (by decide) hv

namespace Heap

theorem Inv.prev_facts {ps qs : List ℕ} {p : ℕ} (hi : h.Inv blocks (ps ++ b :: qs))
    (hp : (0 :: ps).getLast? = some p) : 32 ∣ p ∧ b ≠ p ∧ p < 2 ^ 64 ∧ p = h.hdr b .prev := by
  have hpmem := List.mem_of_mem_getLast? hp
  have hb0 := hi.block_ne_zero (hi.mem_blocks (b := b) (by simp))
  have hnd := (List.nodup_cons.mp (List.nodup_middle.mp (List.nodup_cons.mp hi.ring.nodup).2)).1
  have hprev : p = h.hdr b .prev := by
    exact Option.some.inj (hp.symm.trans hi.ring.prev_eq)
  refine ⟨hi.aligned_of_free ?_, ?_, hprev ▸ hdr_prev_lt, hprev⟩
  · rcases List.mem_cons.mp hpmem with rfl | hmem
    · simp
    · simp [hmem]
  · rintro rfl
    rcases List.mem_cons.mp hpmem with h0 | hmem
    · exact hb0 h0
    · exact hnd (List.mem_append_left _ hmem)

theorem Inv.prev_mem_blocks {ps qs : List ℕ} {p : ℕ} (hi : h.Inv blocks (ps ++ b :: qs))
    (hp : (0 :: ps).getLast? = some p) (hp0 : p ≠ 0) : p ∈ blocks := by
  have hmem := (List.mem_cons.mp (List.mem_of_mem_getLast? hp)).resolve_left hp0
  exact hi.mem_blocks (List.mem_append_left _ hmem)

theorem Inv.next_mem_blocks {ps qs : List ℕ} (hi : h.Inv blocks (ps ++ b :: qs))
    (hc0 : h.hdr b .next ≠ 0) : h.hdr b .next ∈ blocks := by
  have hmem := List.mem_of_mem_head? hi.next_mem
  rw [List.mem_append, List.mem_singleton] at hmem
  have hqs := hmem.resolve_right hc0
  exact hi.mem_blocks (List.mem_append_right _ (List.mem_cons_of_mem b hqs))

/-- The block is handed out as it is: what would be left of it is too small for a block. -/
def TakenWhole (h h' : Heap) (b total : ℕ) (blocks free blocks' free' : List ℕ) : Prop :=
  h.hdr b .size < total + blockHeader.size + minAlloc ∧ blocks' = blocks ∧
    (∃ ps qs, free = ps ++ b :: qs ∧ free' = ps ++ qs) ∧ h'.hdr b .size = h.hdr b .size

def TakenPart (h h' : Heap) (b total : ℕ) (blocks free blocks' free' : List ℕ) : Prop :=
  total + blockHeader.size + minAlloc ≤ h.hdr b .size ∧
    (∃ xs ys, blocks = xs ++ b :: ys ∧ blocks' = xs ++ b :: (b + total) :: ys) ∧
    (∃ ps qs, free = ps ++ b :: qs ∧ free' = ps ++ (b + total) :: qs) ∧
    h'.hdr b .size = total ∧ h'.hdr (b + total) .size = h.hdr b .size - total

/-- The free block `b` is handed out, and everything else is left alone. -/
structure Taken (h h' : Heap) (b total : ℕ) (blocks free blocks' free' : List ℕ) : Prop where
  arena : SameArena h h'
  inv : h'.Inv blocks' free'
  self_mem : b ∈ blocks'
  self_magic : h'.hdr b .magic = blockMagicUsed
  shape : TakenWhole h h' b total blocks free blocks' free' ∨
    TakenPart h h' b total blocks free blocks' free'
  other : ∀ d ∈ blocks, d ≠ b →
    d ∈ blocks' ∧ h'.hdr d .magic = h.hdr d .magic ∧ h'.hdr d .size = h.hdr d .size
  cell : ∀ x, 32 ∣ x → x ≠ 0 → x ≠ b → h.hdr x .magic ≠ blockMagicUsed →
    h'.hdr x .magic ≠ blockMagicUsed
  bytes : ∀ d ∈ blocks, d ≠ b → SamePayload h h' d

theorem Taken.self_size_ge {total : ℕ} {blocks' free' : List ℕ}
    (ht : Taken h h' b total blocks free blocks' free') (hfit : total ≤ h.hdr b .size) :
    total ≤ h'.hdr b .size := by
  rcases ht.shape with ⟨-, -, -, hself⟩ | ⟨-, -, -, hself, -⟩
  · rwa [hself]
  · rw [hself]

theorem Inv.take_whole {ps qs : List ℕ} {p total : ℕ} (hi : h.Inv blocks (ps ++ b :: qs))
    (hp : (0 :: ps).getLast? = some p)
    (hsmall : h.hdr b .size < total + blockHeader.size + minAlloc) :
    Taken h (takeBlock h b p) b total blocks (ps ++ b :: qs) blocks (ps ++ qs) := by
  have hbf : b ∈ ps ++ b :: qs := by simp
  have hbb := hi.mem_blocks hbf
  have hp₁ := hi.prev_facts hp
  have he := takeBlock_effect rfl hp₁.1 (hi.aligned b hbb) hi.next_aligned (hi.block_ne_zero hbb)
    hp₁.2.1 hi.next_ne_self.symm hp₁.2.2.1
  refine ⟨he.arena, take_inv hi he rfl hp, hbb, he.self_magic,
    .inl ⟨hsmall, rfl, ⟨ps, qs, rfl, rfl⟩, he.self_size⟩, ?_, ?_, ?_⟩
  · exact fun d hd hdb => ⟨hd, take_magic hi he hd hdb, take_size hi he hd⟩
  · intro x hx32 hx0 hxb hx
    rw [he.other x hx32 hx0 hxb]
    simpa using hx
  · intro d hd hdb
    refine hi.samePayload hd fun x hx32 hx0 hxm _ _ g => ?_
    have hxb : x ≠ b := fun heq => hxm (heq ▸ hbb)
    rw [he.other x hx32 hx0 hxb, if_neg, if_neg]
    · rintro ⟨heq, -⟩
      rw [heq] at hxm hx0
      exact hxm (hi.prev_mem_blocks hp hx0)
    · rintro ⟨heq, -⟩
      rw [heq] at hxm hx0
      exact hxm (hi.next_mem_blocks hx0)

theorem Inv.take_part {ps qs xs ys : List ℕ} {p total : ℕ}
    (hi : h.Inv (xs ++ b :: ys) (ps ++ b :: qs)) (hp : (0 :: ps).getLast? = some p)
    (htotal : 32 ∣ total) (hmin : 64 ≤ total)
    (hsplit : total + blockHeader.size + minAlloc ≤ h.hdr b .size) :
    Taken h (takeBlock (splitBlock h b total) b p) b total (xs ++ b :: ys) (ps ++ b :: qs)
      (xs ++ b :: (b + total) :: ys) (ps ++ (b + total) :: qs) := by
  have hhdr : blockHeader.size = 32 := rfl
  have hmina : minAlloc = 32 := rfl
  have hbb : b ∈ xs ++ b :: ys := by simp
  have hb0 := hi.block_ne_zero hbb
  have hb32 := hi.aligned b hbb
  have hn32 : 32 ∣ b + total := hb32.add htotal
  have hlt := hi.block_lt hbb
  have hnin : b + total ∉ xs ++ b :: ys := split_notMem hi rfl (by omega) (by omega)
  have hcn : h.hdr b .next ≠ b + total := by
    intro heq
    have hc0 : h.hdr b .next ≠ 0 := by omega
    exact hnin (heq ▸ hi.next_mem_blocks hc0)
  have he := splitBlock_effect rfl rfl hb32 hn32 hi.next_aligned hb0 (by omega) hi.next_ne_self hcn
    (by omega) hsplit
  have hi₁ := split_inv hi he rfl rfl (by omega) (by omega) htotal (by omega) (by omega)
  have hp₁ := hi₁.prev_facts hp
  have he₁ := takeBlock_effect rfl hp₁.1 hb32 hi₁.next_aligned hb0 hp₁.2.1 hi₁.next_ne_self.symm
    hp₁.2.2.1
  have hold : ∀ d ∈ xs ++ b :: ys, d ∈ xs ++ b :: (b + total) :: ys := fun d hd =>
    (mem_append_cons_cons xs b ys).mpr (.inr hd)
  have hnew : b + total ∈ xs ++ b :: (b + total) :: ys := by simp
  have hnb : b + total ≠ b := by omega
  refine ⟨⟨?_, ?_, ?_, ?_⟩, take_inv hi₁ he₁ rfl hp, by simp, he₁.self_magic,
    .inr ⟨hsplit, ⟨xs, ys, rfl, rfl⟩, ⟨ps, qs, rfl, rfl⟩, ?_, ?_⟩, ?_, ?_, ?_⟩
  · exact he₁.arena.initialized.trans he.arena.initialized
  · exact he₁.arena.start.trans he.arena.start
  · exact he₁.arena.stop.trans he.arena.stop
  · exact he₁.arena.total.trans he.arena.total
  · rw [he₁.self_size, he.self_size]
  · rw [take_size hi₁ he₁ hnew, he.new_size]
  · intro d hd hdb
    refine ⟨hold d hd, ?_, ?_⟩
    · rw [take_magic hi₁ he₁ (hold d hd) hdb, split_magic hi he rfl (by omega) (by omega) hd]
    · rw [take_size hi₁ he₁ (hold d hd), split_size hi he rfl (by omega) (by omega) hd hdb]
  · intro x hx32 hx0 hxb hx
    rw [he₁.other x hx32 hx0 hxb]
    by_cases hxn : x = b + total
    · rw [hxn]
      simpa [he.new_magic] using magicFree_ne_used
    · simpa [he.other x hx32 hx0 hxb hxn] using hx
  · intro d hd hdb
    refine hi.samePayload hd fun x hx32 hx0 hxm hlo hhi g => ?_
    have hxb : x ≠ b := fun heq => hxm (heq ▸ hbb)
    -- the cut is inside `b`, and so in no other payload
    have hxn : x ≠ b + total := by
      rintro rfl
      rcases hi.tiles.apart hbb hd (Ne.symm hdb) with happ | happ <;> omega
    have hxp : x ≠ p := by
      intro heq
      rw [heq] at hxm hx0
      exact hxm (hi.prev_mem_blocks hp hx0)
    have hxc : x ≠ h.hdr b .next := by
      intro heq
      rw [heq] at hxm hx0
      exact hxm (hi.next_mem_blocks hx0)
    rw [he₁.other x hx32 hx0 hxb, if_neg (fun hcon => hxn (hcon.1.trans he.self_next)),
      if_neg (fun hcon => hxp hcon.1), he.other x hx32 hx0 hxb hxn, if_neg (fun hcon => hxc hcon.1)]

theorem Inv.take {ps qs : List ℕ} {p total : ℕ} (hi : h.Inv blocks (ps ++ b :: qs))
    (hp : (0 :: ps).getLast? = some p) (htotal : 32 ∣ total) (hmin : 64 ≤ total) :
    ∃ blocks' free', Taken h (takeBlock (splitBlock h b total) b p) b total blocks (ps ++ b :: qs)
      blocks' free' := by
  have hbb := hi.mem_blocks (b := b) (by simp)
  by_cases hsplit : total + blockHeader.size + minAlloc ≤ h.hdr b .size
  · obtain ⟨xs, ys, rfl⟩ := List.append_of_mem hbb
    exact ⟨_, _, hi.take_part hp htotal hmin hsplit⟩
  · have heq : splitBlock h b total = h := by rw [splitBlock, if_neg hsplit]
    rw [heq]
    exact ⟨_, _, hi.take_whole hp (by omega)⟩

theorem hdr_zeroed_ne_used {p size : ℕ} (hp32 : 32 ∣ p) (hx32 : 32 ∣ x)
    (hx : h.hdr x .magic ≠ blockMagicUsed) :
    Heap.hdr { h with mem := h.mem.blit p size fun _ => 0 } x .magic ≠ blockMagicUsed := by
  by_cases hin : p ≤ x + 8 ∧ x + 8 < p + size
  · -- the lowest byte of the magic is zero now
    intro heq
    have hbyte : (h.mem.blit p size fun _ => 0) (x + 8) = 0 := if_pos hin
    have hload : (h.mem.blit p size fun _ => 0).load (x + 8) 4 = blockMagicUsed := heq
    rw [Bytes.load, hbyte] at hload
    have hzero : (0 : UInt8).toNat = 0 := rfl
    have hused : blockMagicUsed = 0xCAFEBABE := rfl
    omega
  · have hsame : (h.mem.blit p size fun _ => 0).load (x + 8) 4 = h.mem.load (x + 8) 4 :=
      Bytes.load_blit_of_apart (by omega)
    exact fun heq => hx (hsame.symm.trans heq)

theorem Taken.zero {total size : ℕ} {blocks' free' : List ℕ}
    (ht : Taken h h' b total blocks free blocks' free')
    (hsize : blockData b + size ≤ b + h'.hdr b .size) :
    Taken h { h' with mem := h'.mem.blit (blockData b) size fun _ => 0 } b total blocks free
      blocks' free' := by
  obtain ⟨h₂, hh₂⟩ : ∃ h₂ : Heap, h₂ = { h' with
    mem := h'.mem.blit (blockData b) size fun _ => 0 } := ⟨_, rfl⟩
  rw [← hh₂]
  have hmem : ∀ i, i < blockData b ∨ b + h'.hdr b .size ≤ i → h₂.mem i = h'.mem i := by
    rw [hh₂]
    dsimp only
    rintro i (hlo | hhi)
    · exact Bytes.blit_of_lt hlo
    · exact Bytes.blit_of_le (hsize.trans hhi)
  have hsame := fun x (hx : x ∈ blocks') g => hdr_of_payload ht.inv ht.self_mem hx hmem g
  have harena : SameArena h' h₂ := by
    rw [hh₂]
    exact ⟨rfl, rfl, rfl, rfl⟩
  have hinv : h₂.Inv blocks' free' := by
    refine ht.inv.payload ht.self_mem harena ?_ ?_ hmem
    all_goals rw [hh₂]
  refine ⟨⟨?_, ?_, ?_, ?_⟩, hinv, ht.self_mem, ?_, ht.shape.imp ?_ ?_, ?_, ?_, ?_⟩
  · exact harena.initialized.trans ht.arena.initialized
  · exact harena.start.trans ht.arena.start
  · exact harena.stop.trans ht.arena.stop
  · exact harena.total.trans ht.arena.total
  · rw [hsame b ht.self_mem, ht.self_magic]
  · rintro ⟨hsmall, hblocks, hfree, hself⟩
    exact ⟨hsmall, hblocks, hfree, (hsame b ht.self_mem _).trans hself⟩
  · rintro ⟨hlarge, ⟨xs, ys, hblocks, rfl⟩, hfree, hself, hrest⟩
    exact ⟨hlarge, ⟨xs, ys, hblocks, rfl⟩, hfree, (hsame b ht.self_mem _).trans hself,
      (hsame _ (by simp) _).trans hrest⟩
  · intro d hd hdb
    obtain ⟨hd', hm, hs⟩ := ht.other d hd hdb
    exact ⟨hd', (hsame d hd' _).trans hm, (hsame d hd' _).trans hs⟩
  · intro x hx32 hx0 hxb hx
    rw [hh₂]
    refine hdr_zeroed_ne_used ?_ hx32 (ht.cell x hx32 hx0 hxb hx)
    exact (ht.inv.aligned b ht.self_mem).add (dvd_refl 32)
  · intro d hd hdb i hlo hhi
    rw [← ht.bytes d hd hdb i hlo hhi]
    obtain ⟨hd', -, hs⟩ := ht.other d hd hdb
    apply hmem
    have happ := ht.inv.tiles.apart ht.self_mem hd' (Ne.symm hdb)
    rw [hs] at happ
    unfold blockData at *
    omega

end Heap

def roundedSize (size : ℕ) : ℕ := (size + blockHeader.size + (minAlloc - 1)) / minAlloc * minAlloc

theorem size_le_roundedSize (size : ℕ) : size + blockHeader.size ≤ roundedSize size := by
  have hrounded : roundedSize size = (size + 32 + 31) / 32 * 32 := rfl
  have hhdr : blockHeader.size = 32 := rfl
  omega

theorem kmalloc_effect (hi : h.Inv blocks free) (size flags : ℕ) :
    ∃ ptr h', kmalloc h size flags = some (ptr, h') ∧
      ((ptr = 0 ∧ h' = h ∧
          (size = 0 ∨ maxAlloc < size ∨ ∀ b ∈ free, h.hdr b .size < roundedSize size)) ∨
        (size ≠ 0 ∧ size ≤ maxAlloc ∧ ∃ b blocks' free', b ∈ free ∧ roundedSize size ≤ h.hdr b .size ∧
          ptr = blockData b ∧ h.Taken h' b (roundedSize size) blocks free blocks' free')) := by
  unfold kmalloc
  rw [if_pos hi.arena.initialized]
  dsimp only
  split
  · next hsize => exact ⟨0, h, rfl, .inl ⟨rfl, rfl, hsize.imp_right .inl⟩⟩
  · next hsize =>
    obtain ⟨hsize0, hle⟩ := not_or.mp hsize
    have hmax : maxAlloc = 67108864 := rfl
    have hhdr : blockHeader.size = 32 := rfl
    have hround : roundedSize size = (size + 32 + 31) / 32 * 32 := rfl
    have htotal : alignUp (size + blockHeader.size) minAlloc = roundedSize size :=
      alignUp_minAlloc (by omega)
    rw [htotal]
    have hring : h.nextOf 0 = h.freeList := if_pos rfl
    have hhead : (free ++ [0]).head? = some h.freeList := hring ▸ hi.ring.head_eq
    have hempty : h.Inv blocks ([] ++ free) := hi
    have hlast : ([0] : List ℕ).getLast? = some 0 := rfl
    rcases Heap.firstFit_spec (roundedSize size) hempty hlast hhead hi.free_length_lt with
      ⟨heq, hall⟩ | ⟨ps, qs, b, p, hfree, hp, hfit, heq⟩
    · rw [heq]
      exact ⟨0, h, rfl, .inl ⟨rfl, rfl, .inr (.inr hall)⟩⟩
    · rw [heq]
      obtain rfl : free = ps ++ b :: qs := hfree
      have h32 : 32 ∣ roundedSize size := Nat.dvd_mul_left _ _
      obtain ⟨blocks', free', ht⟩ := hi.take hp h32 (by omega)
      have hbf : b ∈ ps ++ b :: qs := by simp
      dsimp only
      split
      · refine ⟨_, _, rfl, .inr ⟨hsize0, not_lt.mp hle, b, blocks', free', hbf, hfit, rfl, ?_⟩⟩
        refine ht.zero ?_
        have hself := ht.self_size_ge hfit
        unfold blockData
        omega
      · exact ⟨_, _, rfl, .inr ⟨hsize0, not_lt.mp hle, b, blocks', free', hbf, hfit, rfl, ht⟩⟩

/-! ## Freeing -/

namespace Heap

/-- The block `n` behind `b` is joined to it. -/
structure Coalesced (h h' : Heap) (b n : ℕ) (xs ys ps qs : List ℕ) : Prop where
  arena : SameArena h h'
  inv : h'.Inv (xs ++ b :: ys) (b :: (ps ++ qs))
  self_size : h'.hdr b .size = h.hdr b .size + h.hdr n .size
  gone : h'.hdr n .magic = 0
  magic : ∀ x, 32 ∣ x → x ≠ 0 → x ≠ n → h'.hdr x .magic = h.hdr x .magic
  size : ∀ x ∈ xs ++ b :: ys, x ≠ b → h'.hdr x .size = h.hdr x .size
  cell : ∀ x, 32 ∣ x → x ≠ 0 → x ∉ xs ++ b :: n :: ys → ∀ g, h'.hdr x g = h.hdr x g

theorem Inv.coalesce {xs ys ps qs : List ℕ} {n : ℕ} (hn : n = b + h.hdr b .size)
    (hi : h.Inv (xs ++ b :: n :: ys) (b :: (ps ++ n :: qs))) :
    Coalesced h (Mm.coalesce h b) b n xs ys ps qs := by
  have hbb : b ∈ xs ++ b :: n :: ys := by simp
  have hnb : n ∈ xs ++ b :: n :: ys := by simp
  have hi' : h.Inv (xs ++ b :: n :: ys) ((b :: ps) ++ n :: qs) := hi
  have hbfree := ((hi.mem_free b).mp (by simp)).2
  have hnfree := ((hi.mem_free n).mp (by simp)).2
  have hlast := List.getLast?_eq_some_getLast (List.cons_ne_nil 0 (b :: ps))
  have hp := hi'.prev_facts hlast
  have hp0 : h.hdr n .prev ≠ 0 := by
    rw [← hp.2.2.2]
    have hmem : (0 :: b :: ps).getLast (List.cons_ne_nil 0 (b :: ps)) ∈ b :: ps := by
      rw [List.getLast_cons (List.cons_ne_nil b ps)]
      exact List.getLast_mem _
    refine hi.block_ne_zero (hi.mem_blocks ?_)
    rcases List.mem_cons.mp hmem with heq | hmem
    · simp [heq]
    · exact List.mem_cons_of_mem _ (List.mem_append_left _ hmem)
  have hpm : h.hdr n .prev ∈ xs ++ b :: n :: ys := by
    rw [← hp.2.2.2] at hp0 ⊢
    exact hi'.prev_mem_blocks hlast hp0
  have hbounds := hi.tiles.mem_bounds hnb
  have hsum : h.hdr b .size + h.hdr n .size < 2 ^ 64 := by
    have := hi.block_lt hnb
    omega
  have he := coalesce_effect hn rfl rfl (hi.aligned b hbb) (hi.aligned n hnb) (hp.2.2.2 ▸ hp.1)
    hi'.next_aligned (hi.block_ne_zero hbb) (hi.block_ne_zero hnb) (hp.2.2.2 ▸ hp.2.1) hsum
    (by omega) hnfree
  have hnbne : b ≠ n := by
    have := (hi.tiles.mem_bounds hbb).2.1
    omega
  refine ⟨he.arena, coalesce_inv hi' he rfl rfl hp0 hbfree, ?_, ?_, ?_, ?_, ?_⟩
  · simp [coalesce_other hi' he hbb hnbne]
  · have hjoin : n < h.heapEnd ∧ h.hdr n .magic = blockMagicFree := ⟨by omega, hnfree⟩
    unfold Mm.coalesce
    simp only [← hn]
    rw [if_pos hjoin]
    exact hdr_setHdr_half rfl (by decide)
  · intro x hx32 hx0 hxn
    simp [he.other x hx32 hx0 hxn]
  · intro x hx hxb
    have hnd := hi.tiles.nodup
    have hxn : x ≠ n := by
      rintro rfl
      have hsplit : xs ++ b :: x :: ys = (xs ++ [b]) ++ x :: ys := by simp
      rw [hsplit] at hnd
      exact (List.nodup_cons.mp (List.nodup_middle.mp hnd)).1 (by simpa using hx)
    have hxm := (mem_append_cons_cons (n := n) xs b ys).mpr (.inr hx)
    exact coalesce_size hi' he hxm hxn hxb
  · intro x hx32 hx0 hxm g
    have hxn : x ≠ n := fun heq => hxm (heq ▸ hnb)
    have hxb : x ≠ b := fun heq => hxm (heq ▸ hbb)
    rw [he.other x hx32 hx0 hxn, if_neg (fun hcon => hxb hcon.1), if_neg, if_neg]
    · rintro ⟨heq, -⟩
      exact hxm (heq ▸ hpm)
    · rintro ⟨heq, -⟩
      rw [heq] at hxm hx0
      exact hxm (hi'.next_mem_blocks hx0)

/-- The block given back stays a block of its own: it is the last one, or the next one is used. -/
def FreedAlone (h h' : Heap) (b : ℕ) (blocks free blocks' free' : List ℕ) : Prop :=
  (b + h.hdr b .size = h.heapEnd ∨ h.hdr (b + h.hdr b .size) .magic = blockMagicUsed) ∧
    blocks' = blocks ∧ free' = b :: free ∧ h'.hdr b .size = h.hdr b .size

def FreedJoined (h h' : Heap) (b : ℕ) (blocks free blocks' free' : List ℕ) : Prop :=
  h.hdr (b + h.hdr b .size) .magic = blockMagicFree ∧
    (∃ xs ys, blocks = xs ++ b :: (b + h.hdr b .size) :: ys ∧ blocks' = xs ++ b :: ys) ∧
    (∃ ps qs, free = ps ++ (b + h.hdr b .size) :: qs ∧ free' = b :: (ps ++ qs)) ∧
    h'.hdr b .size = h.hdr b .size + h.hdr (b + h.hdr b .size) .size

/-- The used block `b` is given back, and the other used blocks are left alone. -/
structure Freed (h h' : Heap) (b : ℕ) (blocks free blocks' free' : List ℕ) : Prop where
  arena : SameArena h h'
  inv : h'.Inv blocks' free'
  self_mem : b ∈ blocks'
  self_magic : h'.hdr b .magic = blockMagicFree
  shape : FreedAlone h h' b blocks free blocks' free' ∨ FreedJoined h h' b blocks free blocks' free'
  other : ∀ d ∈ blocks', d ≠ b →
    d ∈ blocks ∧ h'.hdr d .magic = h.hdr d .magic ∧ h'.hdr d .size = h.hdr d .size
  used : ∀ d ∈ blocks, d ≠ b → h.hdr d .magic = blockMagicUsed → d ∈ blocks'
  cell : ∀ x, 32 ∣ x → x ≠ 0 → h.hdr x .magic ≠ blockMagicUsed → h'.hdr x .magic ≠ blockMagicUsed
  bytes : ∀ d ∈ blocks, d ≠ b → SamePayload h h' d

theorem pushFree_spec (hi : h.Inv blocks free) (hb : b ∈ blocks)
    (hused : h.hdr b .magic = blockMagicUsed) :
    PushEffect h (pushFree h b) b ∧ (pushFree h b).Inv blocks (b :: free) ∧
      ∀ x, 32 ∣ x → x ≠ 0 → x ∉ blocks → ∀ g, (pushFree h b).hdr x g = h.hdr x g := by
  have hblt := hi.block_lt hb
  have hlist := hi.freeList_mem
  have hbf := push_notMem hi hused
  have hb0 := hi.block_ne_zero hb
  have hbl : b ≠ h.freeList := by
    rintro heq
    rcases List.mem_cons.mp hlist with h0 | hmem
    · exact hb0 (heq.trans h0)
    · exact hbf (heq ▸ hmem)
  have hllt : h.freeList < 2 ^ 64 := by
    rcases List.mem_cons.mp hlist with h0 | hmem
    · omega
    · have := hi.block_lt (hi.mem_blocks hmem)
      omega
  have he := pushFree_effect (hi.aligned b hb) (hi.aligned_of_free hlist) hb0 hbl (by omega) hllt
  refine ⟨he, push_inv hi he hb hused, fun x hx32 hx0 hxm g => ?_⟩
  have hxb : x ≠ b := fun heq => hxm (heq ▸ hb)
  rw [he.other x hx32 hx0 hxb, if_neg]
  rintro ⟨heq, -⟩
  rw [heq] at hxm hx0
  exact hxm (hi.mem_blocks ((List.mem_cons.mp hlist).resolve_left hx0))

theorem Inv.freed (hi : h.Inv blocks free) (hb : b ∈ blocks)
    (hused : h.hdr b .magic = blockMagicUsed) :
    ∃ blocks' free', Freed h (Mm.coalesce (pushFree h b) b) b blocks free blocks' free' := by
  obtain ⟨he, hi₁, hcell⟩ := pushFree_spec hi hb hused
  generalize pushFree h b = h₁ at he hi₁ hcell ⊢
  have hmagic : ∀ x, 32 ∣ x → x ≠ 0 → x ≠ b → h₁.hdr x .magic = h.hdr x .magic := by
    intro x hx32 hx0 hxb
    simp [he.other x hx32 hx0 hxb]
  have hself := he.self_size
  have hbpos := (hi.tiles.mem_bounds hb).2.1
  have hmark : ∀ x, 32 ∣ x → x ≠ 0 → h.hdr x .magic ≠ blockMagicUsed →
      h₁.hdr x .magic ≠ blockMagicUsed := by
    intro x hx32 hx0 hx
    by_cases hxb : x = b
    · rw [hxb, he.self_magic]
      exact magicFree_ne_used
    · rwa [hmagic x hx32 hx0 hxb]
  by_cases hjoin : b + h₁.hdr b .size < h₁.heapEnd ∧
      h₁.hdr (b + h₁.hdr b .size) .magic = blockMagicFree
  · obtain ⟨xs, ys, rfl⟩ := List.append_of_mem hb
    obtain ⟨zs, rfl⟩ := hi₁.tiles.exists_next hjoin.1
    have hnm : b + h₁.hdr b .size ∈ xs ++ b :: (b + h₁.hdr b .size) :: zs := by simp
    have hne : b + h₁.hdr b .size ≠ b := by omega
    have hn0 := hi.block_ne_zero hnm
    have hnf : b + h₁.hdr b .size ∈ free :=
      (List.mem_cons.mp ((hi₁.mem_free _).mpr ⟨hnm, hjoin.2⟩)).resolve_left hne
    obtain ⟨ps, qs, rfl⟩ := List.append_of_mem hnf
    have hc := hi₁.coalesce rfl
    have hnfree : h.hdr (b + h.hdr b .size) .magic = blockMagicFree := by
      rw [← hself, ← hmagic _ (hi.aligned _ hnm) hn0 hne]
      exact hjoin.2
    have hnsize : h₁.hdr (b + h₁.hdr b .size) .size = h.hdr (b + h₁.hdr b .size) .size :=
      push_size hi he hnm
    have hrest : ∀ d ∈ xs ++ b :: zs, d ≠ b + h₁.hdr b .size := by
      intro d hd heq
      have hnd := hi.tiles.nodup
      have hsplit : xs ++ b :: (b + h₁.hdr b .size) :: zs =
          (xs ++ [b]) ++ (b + h₁.hdr b .size) :: zs := by simp
      rw [hsplit] at hnd
      exact (List.nodup_cons.mp (List.nodup_middle.mp hnd)).1 (by simpa [← heq] using hd)
    refine ⟨xs ++ b :: zs, b :: (ps ++ qs), ⟨?_, ?_, ?_, ?_⟩, hc.inv,
      by simp, ?_, .inr ⟨hnfree, ?_, ?_, ?_⟩,
      ?_, ?_, ?_, ?_⟩
    · exact hc.arena.initialized.trans he.arena.initialized
    · exact hc.arena.start.trans he.arena.start
    · exact hc.arena.stop.trans he.arena.stop
    · exact hc.arena.total.trans he.arena.total
    · rw [hc.magic b (hi.aligned b hb) (hi.block_ne_zero hb) hne.symm, he.self_magic]
    · exact ⟨xs, zs, by rw [hself], rfl⟩
    · exact ⟨ps, qs, by rw [hself], rfl⟩
    · rw [hc.self_size, hnsize, hself]
    · intro d hd hdb
      have hd' := (mem_append_cons_cons (n := b + h₁.hdr b .size) xs b zs).mpr (.inr hd)
      refine ⟨hd', ?_, ?_⟩
      · rw [hc.magic d (hi.aligned d hd') (hi.block_ne_zero hd') (hrest d hd),
          hmagic d (hi.aligned d hd') (hi.block_ne_zero hd') hdb]
      · rw [hc.size d hd hdb, push_size hi he hd']
    · intro d hd hdb hdu
      refine ((mem_append_cons_cons xs b zs).mp hd).resolve_left ?_
      -- a used block is not the free one that is joined
      intro heq
      rw [heq, hself] at hdu
      exact magicFree_ne_used (hnfree.symm.trans hdu)
    · intro x hx32 hx0 hx
      by_cases hxn : x = b + h₁.hdr b .size
      · rw [hxn, hc.gone]
        decide
      · rw [hc.magic x hx32 hx0 hxn]
        exact hmark x hx32 hx0 hx
    · intro d hd _
      refine hi.samePayload hd fun x hx32 hx0 hxm _ _ g => ?_
      rw [hc.cell x hx32 hx0 hxm, hcell x hx32 hx0 hxm]
  · have hend : h₁.heapEnd = h.heapEnd := he.arena.stop
    rw [hself, hend] at hjoin
    have hsame : Mm.coalesce h₁ b = h₁ := by
      rw [Mm.coalesce, if_neg]
      rw [hself, hend]
      exact hjoin
    rw [hsame]
    refine ⟨blocks, b :: free, he.arena, hi₁, hb, he.self_magic, .inl ⟨?_, rfl, rfl, hself⟩, ?_,
      fun d hd _ _ => hd, hmark, ?_⟩
    · have hbounds := hi.tiles.mem_bounds hb
      by_cases hlast : b + h.hdr b .size = h.heapEnd
      · exact .inl hlast
      · right
        obtain ⟨xs, ys, rfl⟩ := List.append_of_mem hb
        obtain ⟨zs, rfl⟩ := hi.tiles.exists_next (by omega)
        have hnm : b + h.hdr b .size ∈ xs ++ b :: (b + h.hdr b .size) :: zs := by simp
        have hnot : h.hdr (b + h.hdr b .size) .magic ≠ blockMagicFree := by
          rw [← hmagic _ (hi.aligned _ hnm) (hi.block_ne_zero hnm) (by omega)]
          exact fun heq => hjoin ⟨by omega, heq⟩
        exact (hi.magic _ hnm).resolve_left hnot
    · exact fun d hd hdb => ⟨hd, push_magic hi he hd hdb, push_size hi he hd⟩
    · intro d hd _
      exact hi.samePayload hd fun x hx32 hx0 hxm _ _ g => hcell x hx32 hx0 hxm g

end Heap

theorem dataToBlock_blockData (hi : h.Inv blocks free) (hb : b ∈ blocks) :
    dataToBlock (blockData b) = b := by
  have hblt := hi.block_lt hb
  have hhdr : blockHeader.size = 32 := rfl
  unfold dataToBlock blockData
  rw [hhdr]
  omega

theorem kfree_effect (hi : h.Inv blocks free) (hb : b ∈ blocks)
    (hused : h.hdr b .magic = blockMagicUsed) :
    ∃ blocks' free', h.Freed (kfree h (blockData b)) b blocks free blocks' free' := by
  have hfree : kfree h (blockData b) = coalesce (pushFree h b) b := by
    have hptr : blockData b ≠ 0 := Nat.ne_of_gt (Nat.add_pos_right b (by decide))
    rw [kfree, if_neg hptr, dataToBlock_blockData hi hb, if_neg (not_not.mpr hused)]
  rw [hfree]
  exact hi.freed hb hused

end GcAos.Mm
