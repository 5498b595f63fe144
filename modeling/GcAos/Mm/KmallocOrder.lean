import GcAos.Mm.KmallocRun

/-! The order of frees. -/

namespace GcAos.Mm
open Lib

variable {h h' : Heap} {b c p : ℕ} {blocks free order : List ℕ}

namespace Heap

/-- When everything is freed in this order, the block `c` becomes a part of the allocation in front of
it: it is free by the time that one is freed. -/
def JoinedBy (h : Heap) (blocks order : List ℕ) (c : ℕ) : Prop :=
  ∃ b ∈ blocks, b + h.hdr b .size = c ∧ h.hdr b .magic = blockMagicUsed ∧
    (h.hdr c .magic = blockMagicFree ∨ order.idxOf (blockData c) < order.idxOf (blockData b))

structure FreesAll (h : Heap) (blocks order : List ℕ) : Prop where
  nodup : order.Nodup
  mem_iff : ∀ p, p ∈ order ↔ ∃ b ∈ blocks, p = blockData b ∧ h.hdr b .magic = blockMagicUsed

theorem blockData_inj : blockData b = blockData c ↔ b = c := Nat.add_right_cancel_iff

theorem FreesAll.mem_of_used (ho : h.FreesAll blocks order) (hb : b ∈ blocks)
    (hused : h.hdr b .magic = blockMagicUsed) : blockData b ∈ order :=
      (ho.mem_iff _).mpr ⟨b, hb, rfl, hused⟩

theorem used_ne_free (hused : h.hdr b .magic = blockMagicUsed) : h.hdr b .magic ≠ blockMagicFree :=
  fun hfree => magicFree_ne_used (hfree.symm.trans hused)

theorem Freed.mem_iff {blocks' free' : List ℕ} (hi : h.Inv blocks free) (hb : b ∈ blocks)
    (hf : h.Freed h' b blocks free blocks' free') :
    c ∈ blocks' ↔ c ∈ blocks ∧ ¬ (b + h.hdr b .size = c ∧ h.hdr c .magic = blockMagicFree) := by
  rcases hf.shape with ⟨hnext, rfl, -, -⟩ | ⟨hnext, ⟨xs, ys, rfl, rfl⟩, -, -⟩
  · refine ⟨fun hc => ⟨hc, ?_⟩, And.left⟩
    rintro ⟨rfl, hfree⟩
    rcases hnext with hend | hused
    · have hbounds := hi.tiles.mem_bounds hc
      omega
    · exact used_ne_free hused hfree
  · have hnd := hi.tiles.nodup
    have hsplit : xs ++ b :: (b + h.hdr b .size) :: ys = (xs ++ [b]) ++ (b + h.hdr b .size) :: ys := by
      simp
    rw [hsplit] at hnd
    have hnot := (List.nodup_cons.mp (List.nodup_middle.mp hnd)).1
    rw [mem_append_cons_cons]
    constructor
    · intro hc
      refine ⟨.inr hc, ?_⟩
      rintro ⟨heq, -⟩
      rw [heq] at hnot
      exact hnot (by simpa using hc)
    · rintro ⟨hcn | hc, hne⟩
      · rw [hcn] at hne
        exact absurd ⟨rfl, hnext⟩ hne
      · exact hc

theorem FreesAll.rest {blocks' free' : List ℕ} (ho : h.FreesAll blocks (blockData b :: order))
    (hf : h.Freed h' b blocks free blocks' free') : h'.FreesAll blocks' order := by
  obtain ⟨hnot, hnd⟩ := List.nodup_cons.mp ho.nodup
  refine ⟨hnd, fun p => ⟨fun hp => ?_, ?_⟩⟩
  · obtain ⟨d, hd, rfl, hused⟩ := (ho.mem_iff p).mp (List.mem_cons_of_mem _ hp)
    have hdb : d ≠ b := by
      rintro rfl
      exact hnot hp
    have hd' := hf.used d hd hdb hused
    exact ⟨d, hd', rfl, (hf.other d hd' hdb).2.1.trans hused⟩
  · rintro ⟨d, hd, rfl, hused⟩
    have hdb : d ≠ b := by
      rintro rfl
      exact magicFree_ne_used (hf.self_magic.symm.trans hused)
    obtain ⟨hd₀, hmagic, -⟩ := hf.other d hd hdb
    have hmem := ho.mem_of_used hd₀ (hmagic.symm.trans hused)
    exact (List.mem_cons.mp hmem).resolve_left fun heq => hdb (blockData_inj.mp heq)

theorem idxOf_cons_lt_iff {x y a : ℕ} {l : List ℕ} :
    (a :: l).idxOf x < (a :: l).idxOf y ↔ a ≠ y ∧ (a = x ∨ l.idxOf x < l.idxOf y) := by
  by_cases hy : a = y
  · simp [hy]
  · by_cases hx : a = x
    · rw [hx, List.idxOf_cons_self, List.idxOf_cons_ne l (hx ▸ hy)]
      simp [hx ▸ hy]
    · rw [List.idxOf_cons_ne l hx, List.idxOf_cons_ne l hy]
      simp [hx, hy]

theorem FreesAll.joinedBy_iff {blocks' free' : List ℕ} (hi : h.Inv blocks free) (hb : b ∈ blocks)
    (hused : h.hdr b .magic = blockMagicUsed) (ho : h.FreesAll blocks (blockData b :: order))
    (hf : h.Freed h' b blocks free blocks' free') (hc : c ∈ blocks') :
    h'.JoinedBy blocks' order c ↔ h.JoinedBy blocks (blockData b :: order) c := by
  have hcb := ((hf.mem_iff hi hb).mp hc).2
  have hne : ∀ d, h'.hdr d .magic = blockMagicUsed → d ≠ b := by
    rintro d hd rfl
    exact magicFree_ne_used (hf.self_magic.symm.trans hd)
  constructor
  · rintro ⟨d, hd, hend, hdu, hlate⟩
    have hdb := hne d hdu
    obtain ⟨hd₀, hmagic, hsize⟩ := hf.other d hd hdb
    refine ⟨d, hd₀, hsize ▸ hend, hmagic.symm.trans hdu, ?_⟩
    rw [idxOf_cons_lt_iff, ne_eq, blockData_inj, blockData_inj]
    by_cases heq : b = c
    · exact .inr ⟨hdb.symm, .inl heq⟩
    · exact hlate.imp (hf.other c hc (Ne.symm heq)).2.1.symm.trans fun hlt => ⟨hdb.symm, .inr hlt⟩
  · rintro ⟨d, hd, hend, hdu, hlate⟩
    rw [idxOf_cons_lt_iff, ne_eq, blockData_inj, blockData_inj] at hlate
    -- the block given back is not joined to the one behind it later
    have hdb : d ≠ b := by
      rintro rfl
      rcases hlate with hfree | ⟨hself, -⟩
      · exact hcb ⟨hend, hfree⟩
      · exact hself rfl
    have hd' := hf.used d hd hdb hdu
    obtain ⟨-, hmagic, hsize⟩ := hf.other d hd' hdb
    refine ⟨d, hd', hsize.symm ▸ hend, hmagic.trans hdu, ?_⟩
    by_cases heq : b = c
    · exact .inl (heq ▸ hf.self_magic)
    · have hcm := (hf.other c hc (Ne.symm heq)).2.1
      exact hlate.imp hcm.trans fun hlt => hlt.2.resolve_left heq

theorem FreesAll.foldl_kfree (hi : h.Inv blocks free) (ho : h.FreesAll blocks order) :
    ∃ blocks' free', (order.foldl kfree h).Inv blocks' free' ∧ SameArena h (order.foldl kfree h) ∧
      (∀ c, c ∈ blocks' ↔ c ∈ blocks ∧ ¬ h.JoinedBy blocks order c) ∧ ∀ c ∈ blocks', c ∈ free' := by
  induction order generalizing h blocks free with
  | nil =>
    have hnone : ∀ d ∈ blocks, h.hdr d .magic ≠ blockMagicUsed := fun d hd hused =>
      List.not_mem_nil (ho.mem_of_used hd hused)
    refine ⟨blocks, free, hi, ⟨rfl, rfl, rfl, rfl⟩, fun c => ⟨fun hc => ⟨hc, ?_⟩, And.left⟩, ?_⟩
    · rintro ⟨d, hd, -, hused, -⟩
      exact hnone d hd hused
    · exact fun c hc => (hi.mem_free c).mpr ⟨hc, (hi.magic c hc).resolve_right (hnone c hc)⟩
  | cons p order ih =>
    obtain ⟨b, hb, rfl, hused⟩ := (ho.mem_iff p).mp List.mem_cons_self
    obtain ⟨blocks₁, free₁, hf⟩ := kfree_effect hi hb hused
    obtain ⟨blocks', free', hi', harena, hmem, hfree⟩ := ih hf.inv (ho.rest hf)
    refine ⟨blocks', free', hi', ⟨?_, ?_, ?_, ?_⟩, fun c => ?_, hfree⟩
    · exact harena.initialized.trans hf.arena.initialized
    · exact harena.start.trans hf.arena.start
    · exact harena.stop.trans hf.arena.stop
    · exact harena.total.trans hf.arena.total
    · rw [hmem]
      constructor
      · rintro ⟨hc, hnot⟩
        rw [ho.joinedBy_iff hi hb hused hf hc] at hnot
        exact ⟨((hf.mem_iff hi hb).mp hc).1, hnot⟩
      · rintro ⟨hc, hnot⟩
        have hc' : c ∈ blocks₁ := by
          refine (hf.mem_iff hi hb).mpr ⟨hc, ?_⟩
          rintro ⟨hend, hcf⟩
          exact hnot ⟨b, hb, hend, hused, .inl hcf⟩
        rw [← ho.joinedBy_iff hi hb hused hf hc'] at hnot
        exact ⟨hc', hnot⟩

/-! ## One block -/

theorem FreesAll.pairwise_iff (ho : h.FreesAll blocks order) {R : ℕ → ℕ → Prop} :
    order.Pairwise R ↔ ∀ p ∈ order, ∀ q ∈ order, order.idxOf p < order.idxOf q → R p q := by
  rw [List.pairwise_iff_getElem]
  constructor
  · intro hR p hp q hq hlt
    have hpq := hR _ _ (List.idxOf_lt_length_iff.mpr hp) (List.idxOf_lt_length_iff.mpr hq) hlt
    rwa [List.getElem_idxOf, List.getElem_idxOf] at hpq
  · intro hR i j hi hj hlt
    refine hR _ (List.getElem_mem hi) _ (List.getElem_mem hj) ?_
    rwa [ho.nodup.idxOf_getElem i hi, ho.nodup.idxOf_getElem j hj]

theorem Inv.idxOf_lt (hi : h.Inv blocks free)
    (hall : ∀ c ∈ blocks, c ≠ h.heapStart → h.JoinedBy blocks order c) (hb : b ∈ blocks)
    (hc : c ∈ blocks) (hused : h.hdr c .magic = blockMagicUsed) (hlt : b < c) :
    order.idxOf (blockData c) < order.idxOf (blockData b) := by
  induction c using Nat.strong_induction_on with
  | _ c ih =>
    have hstart := (hi.tiles.mem_bounds hb).1
    obtain ⟨d, hd, hend, hdu, hlate⟩ := hall c hc (by omega)
    have hearly := hlate.resolve_left (used_ne_free hused)
    have hbounds := hi.tiles.mem_bounds hd
    by_cases hdb : b = d
    · exact hdb ▸ hearly
    · -- nothing starts inside the block in front of `c`
      have hbd : b < d := by
        rcases hi.tiles.apart hb hd hdb with happ | happ
        · have := (hi.tiles.mem_bounds hb).2.1
          omega
        · omega
      exact hearly.trans (ih d (by omega) hd hdu hbd)

theorem FreesAll.all_joined_iff (hi : h.Inv blocks free) (ho : h.FreesAll blocks order)
    (hlast : ∀ b ∈ free, b + h.hdr b .size = h.heapEnd) :
    (∀ c ∈ blocks, c ≠ h.heapStart → h.JoinedBy blocks order c) ↔ order.Pairwise (· > ·) := by
  rw [ho.pairwise_iff]
  constructor
  · intro hall p hp q hq hlt
    obtain ⟨b, hb, rfl, -⟩ := (ho.mem_iff p).mp hp
    obtain ⟨c, hc, rfl, hcu⟩ := (ho.mem_iff q).mp hq
    by_contra hle
    have hbc : b ≠ c := by
      rintro rfl
      exact absurd hlt (lt_irrefl _)
    have hbc' : b < c := by
      unfold blockData at hle
      omega
    exact absurd hlt (hi.idxOf_lt hall hb hc hcu hbc').asymm
  · intro hdesc c hc hne
    obtain ⟨d, hd, hend⟩ := hi.tiles.exists_prev hc hne
    have hbounds := hi.tiles.mem_bounds hc
    have hdpos := (hi.tiles.mem_bounds hd).2.1
    have hdu : h.hdr d .magic = blockMagicUsed := by
      refine (hi.magic d hd).resolve_left fun hfree => ?_
      have := hlast d ((hi.mem_free d).mpr ⟨hd, hfree⟩)
      omega
    refine ⟨d, hd, hend, hdu, (hi.magic c hc).imp_right fun hcu => ?_⟩
    have hdo := ho.mem_of_used hd hdu
    have hco := ho.mem_of_used hc hcu
    have hdata : blockData d < blockData c := by
      unfold blockData
      omega
    refine lt_of_le_of_ne (not_lt.mp fun hlt => ?_) fun heq => ?_
    · exact absurd (hdesc _ hdo _ hco hlt) hdata.asymm
    · exact hdata.ne' ((List.idxOf_inj hco).mp heq)

/-! ## Requests -/

/-- A request that `_kmalloc` does not refuse. -/
def Grants (h : Heap) (size : ℕ) : Prop :=
  ∀ flags, ∃ ptr h', kmalloc h size flags = some (ptr, h') ∧ ptr ≠ 0

theorem Inv.grants_iff (hi : h.Inv blocks free) {size : ℕ} :
    h.Grants size ↔ size ≠ 0 ∧ size ≤ maxAlloc ∧ ∃ b ∈ free, roundedSize size ≤ h.hdr b .size := by
  constructor
  · intro hg
    obtain ⟨ptr, h', hcall, hptr⟩ := hg 0
    obtain ⟨ptr', h'', hcall', hres⟩ := kmalloc_effect hi size 0
    obtain ⟨rfl, rfl⟩ := pair_inj (hcall'.symm.trans hcall)
    rcases hres with ⟨rfl, -⟩ | ⟨hsize, hle, b, -, -, hb, hfit, -⟩
    · exact absurd rfl hptr
    · exact ⟨hsize, hle, b, hb, hfit⟩
  · rintro ⟨hsize, hle, b, hb, hfit⟩ flags
    obtain ⟨ptr, h', hcall, ⟨-, -, hwhy⟩ | ⟨-, -, c, -, -, -, -, rfl, -⟩⟩ :=
        kmalloc_effect hi size flags
    · rcases hwhy with h0 | hlt | hnone
      · exact absurd h0 hsize
      · exact absurd hlt (not_lt.mpr hle)
      · exact absurd (hnone b hb) (not_lt.mpr hfit)
    · exact ⟨_, h', hcall, Nat.ne_of_gt (Nat.add_pos_right c (by decide))⟩

def largestRequest (heapTotal : ℕ) : ℕ := min (roundedSize maxAlloc) (heapTotal / minAlloc * minAlloc)

theorem roundedSize_mono {m n : ℕ} (hmn : m ≤ n) : roundedSize m ≤ roundedSize n :=
  Nat.mul_le_mul_right _ (Nat.div_le_div_right (by omega))

theorem Inv.grants_all_iff {h₀ : Heap} (hi₀ : h₀.Inv [heapBase] [heapBase]) (hi : h.Inv blocks free) :
    (∀ size, h₀.Grants size → h.Grants size) ↔
      ∃ b ∈ free, largestRequest h₀.heapTotal ≤ h.hdr b .size := by
  have hmin : minHeapSize = 67108864 := rfl
  have hmax : maxAlloc = 67108864 := rfl
  have hge := hi₀.arena.total_ge
  have hround : ∀ size, roundedSize size = (size + 32 + 31) / 32 * 32 := fun _ => rfl
  have hwhole : h₀.hdr heapBase .size = h₀.heapTotal := by
    have hend : heapBase + h₀.hdr heapBase .size = h₀.heapEnd := hi₀.tiles.2.2
    have := hi₀.arena.end_eq
    omega
  have hgrants : ∀ size, h₀.Grants size ↔ size ≠ 0 ∧ size ≤ maxAlloc ∧
      roundedSize size ≤ h₀.heapTotal := by
    intro size
    rw [hi₀.grants_iff]
    simp [hwhole]
  have hlargest : largestRequest h₀.heapTotal = min (roundedSize maxAlloc)
      (h₀.heapTotal / 32 * 32) := rfl
  constructor
  · intro hall
    by_cases hfit : roundedSize maxAlloc ≤ h₀.heapTotal
    · obtain ⟨-, -, b, hb, hlarge⟩ := hi.grants_iff.mp
        (hall maxAlloc ((hgrants maxAlloc).mpr ⟨by omega, le_rfl, hfit⟩))
      exact ⟨b, hb, by omega⟩
    · have hsize := hround (h₀.heapTotal / 32 * 32 - 32)
      rw [hround] at hfit
      obtain ⟨-, -, b, hb, hlarge⟩ := hi.grants_iff.mp
        (hall (h₀.heapTotal / 32 * 32 - 32) ((hgrants _).mpr ⟨by omega, by omega, by omega⟩))
      exact ⟨b, hb, by omega⟩
  · rintro ⟨b, hb, hlarge⟩ size hg
    obtain ⟨hsize, hle, hfit⟩ := (hgrants size).mp hg
    have hmono := roundedSize_mono hle
    have hsize' := hround size
    exact hi.grants_iff.mpr ⟨hsize, hle, b, hb, by omega⟩

end Heap

/-! ## Runs -/

namespace HeapSystem

variable {s : HeapSystem} {totalMemory : ℕ} {as : List HeapAction}

/-- The invariant of a run, and what it says of the blocks that no client holds: there are none, and the
size of the heap is that of the start. -/
structure RunInv (s : HeapSystem) (totalMemory : ℕ) (blocks free : List ℕ) : Prop where
  inv : s.Inv blocks free
  held : ∀ b ∈ blocks, s.heap.hdr b .magic = blockMagicUsed → blockData b ∈ s.live.map Prod.fst
  total : s.heap.heapTotal = initHeapTotal totalMemory

theorem RunInv.taken (hs : s.RunInv totalMemory blocks free) {total size : ℕ} {blocks' free' : List ℕ}
    (ht : s.heap.Taken h b total blocks free blocks' free') (hb : b ∈ free)
    (hfit : total ≤ s.heap.hdr b .size) (hsize : size + blockHeader.size ≤ total) :
    RunInv { heap := h, live := (blockData b, size) :: s.live } totalMemory blocks' free' := by
  refine ⟨hs.inv.taken ht hb hfit hsize, fun c hc hused => ?_, ht.arena.total.trans hs.total⟩
  rw [List.map_cons, List.mem_cons]
  by_cases hcb : c = b
  · exact .inl (hcb ▸ rfl)
  · have hc₀ : c ∈ blocks := by
      rcases ht.shape with ⟨-, rfl, -⟩ | ⟨-, ⟨xs, ys, rfl, rfl⟩, ⟨ps, qs, rfl, rfl⟩, -⟩
      · exact hc
      · -- the rest of the block that was cut is free
        refine ((Heap.mem_append_cons_cons xs b ys).mp hc).resolve_left ?_
        rintro rfl
        have hrest : b + total ∈ ps ++ (b + total) :: qs := by simp
        exact Heap.used_ne_free hused ((ht.inv.mem_free _).mp hrest).2
    exact .inr (hs.held c hc₀ ((ht.other c hc₀ hcb).2.1.symm.trans hused))

theorem RunInv.freed (hs : s.RunInv totalMemory blocks free) {blocks' free' : List ℕ}
    (hf : s.heap.Freed h b blocks free blocks' free') :
    RunInv { heap := h, live := s.live.filter (·.1 ≠ blockData b) } totalMemory blocks' free' := by
  refine ⟨hs.inv.freed hf, fun c hc hused => ?_, hf.arena.total.trans hs.total⟩
  have hcb : c ≠ b := by
    rintro rfl
    exact Heap.magicFree_ne_used (hf.self_magic.symm.trans hused)
  obtain ⟨hc₀, hmagic, -⟩ := hf.other c hc hcb
  obtain ⟨x, hx, hxc⟩ := List.mem_map.mp (hs.held c hc₀ (hmagic.symm.trans hused))
  refine List.mem_map.mpr ⟨x, List.mem_filter.mpr ⟨hx, ?_⟩, hxc⟩
  rw [hxc]
  simpa [Heap.blockData_inj] using hcb

theorem RunInv.write (hs : s.RunInv totalMemory blocks free) {addr ptr size : ℕ} {byte : UInt8}
    (hlive : (ptr, size) ∈ s.live) (hlo : ptr ≤ addr) (hhi : addr < ptr + size) :
    RunInv { s with heap := { s.heap with mem := Function.update s.heap.mem addr byte } } totalMemory
      blocks free ∧
      ∀ c ∈ blocks, Heap.hdr { s.heap with mem := Function.update s.heap.mem addr byte } c .size =
        s.heap.hdr c .size := by
  obtain ⟨b, hb, rfl, -, hbs⟩ := hs.inv.live ptr size hlive
  have hmem : ∀ i, i < blockData b ∨ b + s.heap.hdr b .size ≤ i →
      Heap.mem { s.heap with mem := Function.update s.heap.mem addr byte } i = s.heap.mem i := by
    intro i hi
    refine Function.update_of_ne ?_ _ _
    unfold blockData at *
    omega
  have hsame := fun c (hc : c ∈ blocks) g => Heap.hdr_of_payload hs.inv.heap hb hc hmem g
  refine ⟨⟨write_inv hs.inv hlive hlo hhi, fun c hc hused => hs.held c hc ?_, hs.total⟩, fun c hc => ?_⟩
  · rw [← hsame c hc .magic]
    exact hused
  · exact hsame c hc .size

theorem runInv_init (mem : Bytes) (totalMemory : ℕ) :
    (init mem totalMemory).RunInv totalMemory [heapBase] [heapBase] := by
  have hi := init_inv mem totalMemory
  refine ⟨hi, fun b hb hused => ?_, rfl⟩
  exact absurd ((hi.heap.mem_free b).mp hb).2 (Heap.used_ne_free hused)

theorem RunInv.whole_last (hs : s.RunInv totalMemory [heapBase] [heapBase]) :
    ∀ b ∈ [heapBase], b + s.heap.hdr b .size = s.heap.heapEnd := by
  intro b hb
  rw [List.mem_singleton.mp hb]
  exact hs.inv.heap.tiles.2.2

theorem step_runInv (s : HeapSystem) (a : HeapAction) (t : HeapSystem)
    (hs : ∃ blocks free, s.RunInv totalMemory blocks free) (hstep : Step s a t) :
    ∃ blocks free, t.RunInv totalMemory blocks free := by
  obtain ⟨blocks, free, hs⟩ := hs
  cases hstep with
  | @kmalloc size flags ptr h hcall =>
    rcases kmalloc_cases hs.inv.heap hcall with heq | ⟨b, hb, blocks', free', hfit, -, ht, heq⟩
    · rw [heq]
      exact ⟨blocks, free, hs⟩
    · rw [heq]
      exact ⟨blocks', free', hs.taken ht hb hfit (size_le_roundedSize size)⟩
  | @kfree ptr hptr =>
    rcases hptr with rfl | hptr
    · have hnull : Mm.kfree s.heap 0 = s.heap := by rw [Mm.kfree, if_pos rfl]
      have hlive : s.live.filter (·.1 ≠ 0) = s.live := by
        rw [List.filter_eq_self]
        rintro ⟨p, n⟩ hpn
        obtain ⟨b, -, rfl, -⟩ := hs.inv.live p n hpn
        simp [blockData, blockHeader]
      rw [hnull, hlive]
      exact ⟨blocks, free, hs⟩
    · obtain ⟨⟨q, m⟩, hqm, rfl⟩ := List.mem_map.mp hptr
      obtain ⟨b, hb, hq, hbm, -⟩ := hs.inv.live q m hqm
      dsimp only at hq ⊢
      subst hq
      obtain ⟨blocks', free', hf⟩ := kfree_effect hs.inv.heap hb hbm
      exact ⟨blocks', free', hs.freed hf⟩
  | write hlive hlo hhi => exact ⟨blocks, free, (hs.write hlive hlo hhi).1⟩

theorem RunInv.freesAll (hs : s.RunInv totalMemory blocks free)
    (horder : order.Perm (s.live.map Prod.fst)) : s.heap.FreesAll blocks order := by
  refine ⟨horder.nodup_iff.mpr hs.inv.nodup, fun p => ?_⟩
  rw [horder.mem_iff]
  constructor
  · intro hp
    obtain ⟨⟨q, m⟩, hqm, rfl⟩ := List.mem_map.mp hp
    obtain ⟨b, hb, hq, hbm, -⟩ := hs.inv.live q m hqm
    exact ⟨b, hb, hq, hbm⟩
  · rintro ⟨b, hb, rfl, hbm⟩
    exact hs.held b hb hbm

/-! ## Allocations only -/

theorem taken_last {total : ℕ} {blocks' free' : List ℕ} (hi : h.Inv blocks free)
    (hlast : ∀ d ∈ free, d + h.hdr d .size = h.heapEnd) (hb : b ∈ free)
    (ht : h.Taken h' b total blocks free blocks' free') (hfit : total ≤ h.hdr b .size) :
    ∀ d ∈ free', d + h'.hdr d .size = h'.heapEnd := by
  intro d hd
  rw [ht.arena.stop]
  have hdb : d ≠ b := by
    rintro rfl
    exact Heap.used_ne_free ht.self_magic ((ht.inv.mem_free d).mp hd).2
  have hold : d ∈ free → d + h'.hdr d .size = h.heapEnd := by
    intro hdf
    rw [(ht.other d (hi.mem_blocks hdf) hdb).2.2]
    exact hlast d hdf
  rcases ht.shape with ⟨-, -, ⟨ps, qs, rfl, rfl⟩, -⟩ | ⟨-, -, ⟨ps, qs, rfl, rfl⟩, -, hrest⟩
  · refine hold ?_
    rw [List.mem_append, List.mem_cons]
    exact (List.mem_append.mp hd).imp_right .inr
  · by_cases hdn : d = b + total
    · have hblast := hlast b hb
      rw [hdn, hrest]
      omega
    · refine hold ?_
      rw [List.mem_append, List.mem_cons] at hd ⊢
      exact hd.imp_right fun hd => .inr (hd.resolve_left hdn)

structure LastInv (s : HeapSystem) (totalMemory : ℕ) (blocks free : List ℕ) : Prop where
  run : s.RunInv totalMemory blocks free
  last : ∀ b ∈ free, b + s.heap.hdr b .size = s.heap.heapEnd

theorem alloc_lastInv (s : HeapSystem) (a : HeapAction) (t : HeapSystem)
    (hs : ∃ blocks free, s.LastInv totalMemory blocks free)
    (hstep : Step s a t ∧ ∀ p, a ≠ .kfree p) : ∃ blocks free, t.LastInv totalMemory blocks free := by
  obtain ⟨blocks, free, hs⟩ := hs
  obtain ⟨hstep, halloc⟩ := hstep
  cases hstep with
  | @kmalloc size flags ptr h hcall =>
    rcases kmalloc_cases hs.run.inv.heap hcall with heq | ⟨b, hb, blocks', free', hfit, -, ht, heq⟩
    · rw [heq]
      exact ⟨blocks, free, hs⟩
    · rw [heq]
      exact ⟨blocks', free', hs.run.taken ht hb hfit (size_le_roundedSize size),
        taken_last hs.run.inv.heap hs.last hb ht hfit⟩
  | @kfree ptr hptr => exact absurd rfl (halloc ptr)
  | @write addr ptr size byte hlive hlo hhi =>
    obtain ⟨hinv, hsame⟩ := hs.run.write hlive hlo hhi
    refine ⟨blocks, free, hinv, fun b hb => ?_⟩
    rw [hsame b (hs.run.inv.heap.mem_blocks hb)]
    exact hs.last b hb

/-- After any calls, everything that is live is freed in the given order. The blocks left are those
that do not lie behind an allocation which is freed after them; the requests of the fresh heap are all
granted again exactly when one of these blocks is large enough for the largest. When nothing was freed
before, one block is left exactly when the later blocks are freed first. -/
theorem free_all_restores {mem : Bytes} (hrun : Exec Step (init mem totalMemory) as s)
    (horder : order.Perm (s.live.map Prod.fst)) :
    ∃ blocks free blocks' free', s.heap.Inv blocks free ∧
      (order.foldl kfree s.heap).Inv blocks' free' ∧ (∀ c ∈ blocks', c ∈ free') ∧
      (∀ c, c ∈ blocks' ↔ c ∈ blocks ∧ ¬ s.heap.JoinedBy blocks order c) ∧
      ((∀ size, (init mem totalMemory).heap.Grants size → (order.foldl kfree s.heap).Grants size) ↔
        ∃ b ∈ blocks', Heap.largestRequest (initHeapTotal totalMemory) ≤
          (order.foldl kfree s.heap).hdr b .size) ∧
      (blocks' = [heapBase] →
        ∀ size, (init mem totalMemory).heap.Grants size → (order.foldl kfree s.heap).Grants size) ∧
      ((∀ a ∈ as, ∀ p, a ≠ .kfree p) → (blocks' = [heapBase] ↔ order.Pairwise (· > ·))) := by
  have hinit := runInv_init mem totalMemory
  obtain ⟨blocks, free, hs, hlast⟩ : ∃ blocks free, s.RunInv totalMemory blocks free ∧
      ((∀ a ∈ as, ∀ p, a ≠ .kfree p) → ∀ b ∈ free, b + s.heap.hdr b .size = s.heap.heapEnd) := by
    by_cases halloc : ∀ a ∈ as, ∀ p, a ≠ .kfree p
    · obtain ⟨blocks, free, hs⟩ := (hrun.restrict halloc).invariant alloc_lastInv
        ⟨_, _, hinit, hinit.whole_last⟩
      exact ⟨blocks, free, hs.run, fun _ => hs.last⟩
    · obtain ⟨blocks, free, hs⟩ := hrun.invariant step_runInv ⟨_, _, hinit⟩
      exact ⟨blocks, free, hs, fun h => absurd h halloc⟩
  have ho := hs.freesAll horder
  obtain ⟨blocks', free', hi', harena, hmem, hfree⟩ := ho.foldl_kfree hs.inv.heap
  have hgrants := Heap.Inv.grants_all_iff hinit.inv.heap hi'
  have hall : (∀ size, (init mem totalMemory).heap.Grants size →
      (order.foldl kfree s.heap).Grants size) ↔
      ∃ b ∈ blocks', Heap.largestRequest (initHeapTotal totalMemory) ≤
        (order.foldl kfree s.heap).hdr b .size := by
    rw [hgrants, hinit.total]
    exact exists_congr fun b => and_congr_left fun _ => ⟨hi'.mem_blocks, hfree b⟩
  have hstart := hi'.arena.start_eq
  have hpos : (order.foldl kfree s.heap).heapStart < (order.foldl kfree s.heap).heapEnd := by
    have hmin : minHeapSize = 67108864 := rfl
    have hend := hi'.arena.end_eq
    have hge := hi'.arena.total_ge
    omega
  have hone := hi'.tiles.eq_singleton_iff hpos
  rw [hstart] at hone
  refine ⟨blocks, free, blocks', free', hs.inv.heap, hi', hfree, hmem, hall, fun heq => ?_,
    fun halloc => ?_⟩
  · refine hall.mpr ⟨heapBase, ?_, ?_⟩
    · rw [heq]
      exact List.mem_singleton_self _
    · subst heq
      have hend : heapBase + (order.foldl kfree s.heap).hdr heapBase .size =
        (order.foldl kfree s.heap).heapEnd := hi'.tiles.2.2
      have hend' := hi'.arena.end_eq
      have htotal := harena.total.trans hs.total
      have hlargest : Heap.largestRequest (initHeapTotal totalMemory) ≤ initHeapTotal totalMemory :=
        (min_le_right _ _).trans (Nat.div_mul_le_self _ _)
      omega
  · rw [hone, ← ho.all_joined_iff hs.inv.heap (hlast halloc), hs.inv.heap.arena.start_eq]
    refine forall_congr' fun c => ?_
    rw [hmem, and_imp]
    refine forall_congr' fun hc => ?_
    rw [← not_imp_not, not_not]

theorem free_all_restores_three : ∃ s : HeapSystem,
    Exec Step (init (fun _ => 0) 0x40000000) [.kmalloc 100 0, .kmalloc 200 0, .kmalloc 300 0] s ∧
      (∃ blocks blocks', (∀ c, c ∈ blocks' ↔
        c ∈ blocks ∧ ¬ s.heap.JoinedBy blocks [0x420001c0, 0x420000c0, 0x42000020] c) ∧
          blocks' = [heapBase]) ∧
      ∃ blocks blocks', (∀ c, c ∈ blocks' ↔
        c ∈ blocks ∧ ¬ s.heap.JoinedBy blocks [0x420000c0, 0x42000020, 0x420001c0] c) ∧
          blocks' ≠ [heapBase] := by
  have hcalls : ((Mm.kmalloc (init (fun _ => 0) 0x40000000).heap 100 0).bind fun r =>
      (Mm.kmalloc r.2 200 0).bind fun r' => (Mm.kmalloc r'.2 300 0).map fun q =>
        (r.1, r'.1, q.1)) = some (0x42000020, 0x420000c0, 0x420001c0) := by decide +kernel
  obtain ⟨h, h', h'', hfirst, hsecond, hlast⟩ := three_calls hcalls
  have hrun : Exec Step (init (fun _ => 0) 0x40000000) [.kmalloc 100 0, .kmalloc 200 0, .kmalloc 300 0] _ :=
    .cons (.kmalloc hfirst) (.cons (.kmalloc hsecond) (.cons (.kmalloc hlast) (.nil _)))
  have halloc : ∀ a ∈ [HeapAction.kmalloc 100 0, .kmalloc 200 0, .kmalloc 300 0], ∀ p, a ≠ .kfree p := by
    simp
  obtain ⟨blocks, -, blocks', -, -, -, -, hmem, -, -, hone⟩ :=
    free_all_restores hrun (List.Perm.refl [0x420001c0, 0x420000c0, 0x42000020])
  obtain ⟨blocks₁, -, blocks₁', -, -, -, -, hmem₁, -, -, hone₁⟩ :=
    free_all_restores hrun (show [0x420000c0, 0x42000020, 0x420001c0].Perm
      [0x420001c0, 0x420000c0, 0x42000020] by decide)
  exact ⟨_, hrun, ⟨blocks, blocks', hmem, (hone halloc).mpr (by decide)⟩,
    blocks₁, blocks₁', hmem₁, fun heq => absurd ((hone₁ halloc).mp heq) (by decide)⟩

/-- The allocation in front is freed first, and stays a block of its own. -/
theorem free_all_fragments : ¬ ∀ (mem : Bytes) (totalMemory : ℕ) (as : List HeapAction) (s : HeapSystem)
    (order : List ℕ), Exec Step (init mem totalMemory) as s → (∀ a ∈ as, ∀ p, a ≠ .kfree p) →
      order.Perm (s.live.map Prod.fst) →
      ∀ size, (init mem totalMemory).heap.Grants size → (order.foldl kfree s.heap).Grants size := by
  intro hall
  have hcalls : ((Mm.kmalloc (init (fun _ => 0) 0x6000000).heap 100 0).bind fun r =>
      (Mm.kmalloc r.2 100 0).bind fun r' =>
        (Mm.kmalloc (kfree (kfree r'.2 r.1) r'.1) 67108832 0).map fun q => (r.1, r'.1, q.1)) =
      some (0x42000020, 0x420000c0, 0) := by decide +kernel
  obtain ⟨h, h', h'', hfirst, hsecond, hlast⟩ := three_calls hcalls
  have hrun : Exec Step (init (fun _ => 0) 0x6000000) [.kmalloc 100 0, .kmalloc 100 0] _ :=
    .cons (.kmalloc hfirst) (.cons (.kmalloc hsecond) (.nil _))
  have halloc : ∀ a ∈ [HeapAction.kmalloc 100 0, .kmalloc 100 0], ∀ p, a ≠ .kfree p := by simp
  have hfresh : (init (fun _ => 0) 0x6000000).heap.Grants 67108832 := by
    refine (init_inv _ _).heap.grants_iff.mpr ⟨by decide, by decide, heapBase, by simp, ?_⟩
    decide +kernel
  have horder : [0x42000020, 0x420000c0].Perm [0x420000c0, 0x42000020] := List.Perm.swap _ _ []
  obtain ⟨ptr, h₁, hcall, hptr⟩ := hall _ _ _ _ _ hrun halloc horder 67108832 hfresh 0
  rw [List.foldl_cons, List.foldl_cons, List.foldl_nil, hlast] at hcall
  exact hptr (pair_inj hcall).1.symm

end HeapSystem

end GcAos.Mm
