import GcAos.Mm.KmallocEffect

/-! The runs of the kernel heap with its clients, and the invariant they keep. -/

namespace GcAos.Mm
open Lib

variable {h : Heap} {b x : ℕ} {blocks free : List ℕ}

/-! ## Initialisation -/

theorem initHeapTotal_bounds (totalMemory : ℕ) :
    minHeapSize ≤ initHeapTotal totalMemory ∧ initHeapTotal totalMemory ≤ defaultHeapSize := by
  have hmin : minHeapSize = 67108864 := rfl
  have hdef : defaultHeapSize = 536870912 := rfl
  unfold initHeapTotal
  dsimp only
  split_ifs <;> omega

theorem kmallocInit_inv (h : Heap) : (kmallocInit h).Inv [heapBase] [heapBase] := by
  obtain ⟨hlo, hhi⟩ := initHeapTotal_bounds h.totalMemory
  have hdef : defaultHeapSize = 536870912 := rfl
  have hmin : minHeapSize = 67108864 := rfl
  obtain ⟨h₀, hh₀⟩ : ∃ h₀ : Heap, h₀ = { h with
    heapStart := heapBase, heapTotal := initHeapTotal h.totalMemory,
    heapEnd := heapBase + initHeapTotal h.totalMemory, heapUsed := 0, freeList := heapBase } := ⟨_, rfl⟩
  obtain ⟨h₁, hh₁⟩ : ∃ h₁, h₁ = ((((h₀.setHdr heapBase .size
      (initHeapTotal h.totalMemory)).setHdr heapBase
    .magic blockMagicFree).setHdr heapBase .flags blockFlagFree).setHdr heapBase .next 0).setHdr heapBase
    .prev 0 := ⟨_, rfl⟩
  have heq : kmallocInit h = { h₁ with heapInitialized := true } := by
    rw [hh₁, hh₀]
    rfl
  have hhdr : ∀ g, (kmallocInit h).hdr heapBase g = h₁.hdr heapBase g := by
    intro g
    rw [heq]
    rfl
  have hsize : (kmallocInit h).hdr heapBase .size = initHeapTotal h.totalMemory := by
    rw [hhdr, hh₁]
    rw [Heap.hdr_setHdr_field (by decide), Heap.hdr_setHdr_field (by decide),
      Heap.hdr_setHdr_field (by decide), Heap.hdr_setHdr_field (by decide),
      Heap.hdr_setHdr_self rfl (by omega)]
  have hmagic : (kmallocInit h).hdr heapBase .magic = blockMagicFree := by
    rw [hhdr, hh₁]
    rw [Heap.hdr_setHdr_field (by decide), Heap.hdr_setHdr_field (by decide),
      Heap.hdr_setHdr_field (by decide), Heap.hdr_setHdr_half rfl (by decide)]
  have hnext : (kmallocInit h).hdr heapBase .next = 0 := by
    rw [hhdr, hh₁, Heap.hdr_setHdr_field (by decide), Heap.hdr_setHdr_self rfl (by decide)]
  have hprev : (kmallocInit h).hdr heapBase .prev = 0 := by
    rw [hhdr, hh₁, Heap.hdr_setHdr_self rfl (by decide)]
  have harena : (kmallocInit h).Arena ∧ (kmallocInit h).heapUsed = 0 ∧
      (kmallocInit h).freeList = heapBase := by
    rw [heq, hh₁, hh₀]
    refine ⟨⟨?_, ?_, ?_, ?_, ?_⟩, ?_, ?_⟩ <;> simp [hlo, hhi]
  have hbase : heapBase ≠ 0 := by decide
  refine ⟨harena.1, ⟨harena.1.start_eq.symm, ?_, ?_⟩, ?_, ?_, ?_, ?_, ?_, ?_⟩
  · show 0 < (kmallocInit h).hdr heapBase .size
    omega
  · show heapBase + (kmallocInit h).hdr heapBase .size = (kmallocInit h).heapEnd
    rw [hsize, heq, hh₁, hh₀]
    simp
  · simp only [List.mem_singleton, forall_eq]
    decide
  · simp only [List.mem_singleton, forall_eq, hsize]
    exact (by decide : blockHeader.size ≤ minHeapSize).trans hlo
  · simp only [List.mem_singleton, forall_eq]
    exact .inl hmagic
  · refine ⟨?_, by simp [hbase.symm]⟩
    refine .cons_cons ⟨?_, fun _ => hprev⟩ (List.isChain_pair.mpr ⟨?_, fun h0 => absurd rfl h0⟩)
    · rw [Heap.nextOf, if_pos rfl, harena.2.2]
    · rw [Heap.nextOf, if_neg hbase, hnext]
  · intro b
    simp only [List.mem_singleton]
    constructor
    · rintro rfl
      exact ⟨rfl, hmagic⟩
    · exact And.left
  · rw [harena.2.1, Heap.usedSum_cons, Heap.usedSize_of_free hmagic]
    rfl

/-! ## Runs -/

namespace HeapSystem

/-- The invariant of the heap and its clients: each live allocation is the payload of a used
block that is large enough for it. -/
structure Inv (s : HeapSystem) (blocks free : List ℕ) : Prop where
  heap : s.heap.Inv blocks free
  live : ∀ p n, (p, n) ∈ s.live → ∃ b ∈ blocks, p = blockData b ∧
    s.heap.hdr b .magic = blockMagicUsed ∧ n + blockHeader.size ≤ s.heap.hdr b .size
  nodup : (s.live.map Prod.fst).Nodup

theorem init_inv (mem : Bytes) (totalMemory : ℕ) : (init mem totalMemory).Inv [heapBase] [heapBase] :=
  ⟨kmallocInit_inv _, by simp [init], by simp [init]⟩

variable {s : HeapSystem}

theorem Inv.taken (hs : s.Inv blocks free) {total size : ℕ} {blocks' free' : List ℕ}
    (ht : s.heap.Taken h b total blocks free blocks' free') (hb : b ∈ free)
    (hfit : total ≤ s.heap.hdr b .size) (hsize : size + blockHeader.size ≤ total) :
    Inv { heap := h, live := (blockData b, size) :: s.live } blocks' free' := by
  have hbfree := ((hs.heap.mem_free b).mp hb).2
  -- the block handed out was free, so no client holds it
  have hheld : ∀ c, s.heap.hdr c .magic = blockMagicUsed → c ≠ b := by
    rintro c hc rfl
    exact Heap.magicFree_ne_used (hbfree.symm.trans hc)
  refine ⟨ht.inv, ?_, ?_⟩
  · intro p n hpn
    rcases List.mem_cons.mp hpn with heq | hpn
    · cases heq
      exact ⟨b, ht.self_mem, rfl, ht.self_magic, hsize.trans (ht.self_size_ge hfit)⟩
    · obtain ⟨c, hc, hp, hcm, hcs⟩ := hs.live p n hpn
      obtain ⟨hc', hcm', hcs'⟩ := ht.other c hc (hheld c hcm)
      exact ⟨c, hc', hp, hcm'.trans hcm, hcs'.symm ▸ hcs⟩
  · refine List.nodup_cons.mpr ⟨?_, hs.nodup⟩
    intro hmem
    obtain ⟨⟨p, n⟩, hpn, hfst⟩ := List.mem_map.mp hmem
    obtain ⟨c, _, hp, hcm, _⟩ := hs.live p n hpn
    refine hheld c hcm ?_
    dsimp only at hfst
    unfold blockData at hp hfst
    omega

/-- What `_kmalloc` does to the heap and its clients: nothing, or it takes a free block. -/
theorem kmalloc_cases (hi : s.heap.Inv blocks free) {size flags ptr : ℕ}
    (hcall : Mm.kmalloc s.heap size flags = some (ptr, h)) :
    { heap := h, live := if ptr = 0 then s.live else (ptr, size) :: s.live : HeapSystem } = s ∨
      ∃ b ∈ free, ∃ blocks' free', roundedSize size ≤ s.heap.hdr b .size ∧ ptr = blockData b ∧
        s.heap.Taken h b (roundedSize size) blocks free blocks' free' ∧
        { heap := h, live := if ptr = 0 then s.live else (ptr, size) :: s.live : HeapSystem } =
          { heap := h, live := (blockData b, size) :: s.live } := by
  obtain ⟨ptr', h', hcall', hres⟩ := kmalloc_effect hi size flags
  obtain ⟨rfl, rfl⟩ := pair_inj (hcall'.symm.trans hcall)
  rcases hres with ⟨rfl, rfl, -⟩ | ⟨-, -, b, blocks', free', hb, hfit, rfl, ht⟩
  · exact .inl rfl
  · have hptr : blockData b ≠ 0 := Nat.ne_of_gt (Nat.add_pos_right b (by decide))
    exact .inr ⟨b, hb, blocks', free', hfit, rfl, ht, by rw [if_neg hptr]⟩

theorem kmalloc_inv (hs : s.Inv blocks free) {size flags ptr : ℕ}
    (hcall : Mm.kmalloc s.heap size flags = some (ptr, h)) :
    ∃ blocks' free', Inv
      { heap := h, live := if ptr = 0 then s.live else (ptr, size) :: s.live } blocks' free' := by
  rcases kmalloc_cases hs.heap hcall with heq | ⟨b, hb, blocks', free', hfit, -, ht, heq⟩
  · rw [heq]
    exact ⟨blocks, free, hs⟩
  · rw [heq]
    exact ⟨blocks', free', hs.taken ht hb hfit (size_le_roundedSize size)⟩

theorem Inv.freed (hs : s.Inv blocks free) {blocks' free' : List ℕ}
    (hf : s.heap.Freed h b blocks free blocks' free') :
    Inv { heap := h, live := s.live.filter (·.1 ≠ blockData b) } blocks' free' := by
  refine ⟨hf.inv, ?_, hs.nodup.sublist (List.filter_sublist.map _)⟩
  intro p n hpn
  obtain ⟨hpn, hne⟩ := List.mem_filter.mp hpn
  obtain ⟨c, hc, hp, hcm, hcs⟩ := hs.live p n hpn
  have hcb : c ≠ b := by
    rintro rfl
    simp [hp] at hne
  have hc' := hf.used c hc hcb hcm
  obtain ⟨-, hcm', hcs'⟩ := hf.other c hc' hcb
  exact ⟨c, hc', hp, hcm'.trans hcm, hcs'.symm ▸ hcs⟩

theorem kfree_inv (hs : s.Inv blocks free) {ptr : ℕ} (hptr : ptr = 0 ∨ ptr ∈ s.live.map Prod.fst) :
    ∃ blocks' free', Inv
      { heap := Mm.kfree s.heap ptr, live := s.live.filter (·.1 ≠ ptr) } blocks' free' := by
  rcases hptr with rfl | hptr
  · have hnull : Mm.kfree s.heap 0 = s.heap := by rw [Mm.kfree, if_pos rfl]
    rw [hnull]
    exact ⟨blocks, free, hs.heap, fun p n hpn => hs.live p n (List.mem_filter.mp hpn).1,
      hs.nodup.sublist (List.filter_sublist.map _)⟩
  · obtain ⟨⟨q, m⟩, hqm, rfl⟩ := List.mem_map.mp hptr
    obtain ⟨b, hb, hq, hbm, _⟩ := hs.live q m hqm
    dsimp only at hq ⊢
    subst hq
    obtain ⟨blocks', free', hf⟩ := kfree_effect hs.heap hb hbm
    exact ⟨blocks', free', hs.freed hf⟩

theorem Inv.overwrite (hs : s.Inv blocks free) (hb : b ∈ blocks) {m : Bytes}
    (hmem : ∀ i, i < blockData b ∨ b + s.heap.hdr b .size ≤ i → m i = s.heap.mem i) :
    Inv { s with heap := { s.heap with mem := m } } blocks free := by
  obtain ⟨h₁, hh₁⟩ : ∃ h₁ : Heap, h₁ = { s.heap with mem := m } := ⟨_, rfl⟩
  rw [← hh₁]
  have hmem₁ : ∀ i, i < blockData b ∨ b + s.heap.hdr b .size ≤ i → h₁.mem i = s.heap.mem i := by
    rw [hh₁]
    exact hmem
  have hsame := fun x (hx : x ∈ blocks) g => Heap.hdr_of_payload hs.heap hb hx hmem₁ g
  refine ⟨?_, ?_, hs.nodup⟩
  · refine hs.heap.payload hb ?_ ?_ ?_ hmem₁
    all_goals rw [hh₁]
    exact ⟨rfl, rfl, rfl, rfl⟩
  · intro p n hpn
    obtain ⟨c, hc, hp, hcm, hcs⟩ := hs.live p n hpn
    exact ⟨c, hc, hp, (hsame c hc .magic).trans hcm, (hsame c hc .size).symm ▸ hcs⟩

theorem write_inv (hs : s.Inv blocks free) {addr ptr size : ℕ} {byte : UInt8}
    (hlive : (ptr, size) ∈ s.live) (hlo : ptr ≤ addr) (hhi : addr < ptr + size) :
    Inv { s with heap := { s.heap with mem := Function.update s.heap.mem addr byte } } blocks free := by
  obtain ⟨b, hb, rfl, hbm, hbs⟩ := hs.live ptr size hlive
  refine hs.overwrite hb fun i hi => Function.update_of_ne ?_ _ _
  unfold blockData at *
  omega

theorem step_inv (s : HeapSystem) (a : HeapAction) (t : HeapSystem)
    (hs : ∃ blocks free, s.Inv blocks free) (hstep : Step s a t) : ∃ blocks free,
      t.Inv blocks free := by
  obtain ⟨blocks, free, hs⟩ := hs
  cases hstep with
  | kmalloc hcall => exact kmalloc_inv hs hcall
  | kfree hptr => exact kfree_inv hs hptr
  | write hlive hlo hhi => exact ⟨blocks, free, write_inv hs hlive hlo hhi⟩

def payloadSize (s : HeapSystem) (ptr : ℕ) : ℕ :=
  s.heap.hdr (dataToBlock ptr) .size - blockHeader.size

theorem Inv.payload_bounds (hs : s.Inv blocks free) {p n : ℕ} (hpn : (p, n) ∈ s.live) :
    s.heap.heapStart ≤ p ∧ p + s.payloadSize p ≤ s.heap.heapEnd ∧ n ≤ s.payloadSize p := by
  obtain ⟨b, hb, rfl, _, hlarge⟩ := hs.live p n hpn
  have hbounds := hs.heap.tiles.mem_bounds hb
  unfold payloadSize
  rw [dataToBlock_blockData hs.heap hb]
  unfold blockData
  omega

theorem Inv.payload_apart (hs : s.Inv blocks free) :
    s.live.Pairwise fun x y => x.1 + s.payloadSize x.1 ≤ y.1 ∨ y.1 + s.payloadSize y.1 ≤ x.1 := by
  refine hs.nodup.of_map.pairwise_of_forall_ne ?_
  rintro ⟨p, n⟩ hp ⟨q, m⟩ hq hne
  obtain ⟨b, hb, rfl, _, hb'⟩ := hs.live p n hp
  obtain ⟨c, hc, rfl, _, hc'⟩ := hs.live q m hq
  have hbc : b ≠ c := by
    rintro rfl
    exact hne (List.inj_on_of_nodup_map hs.nodup hp hq rfl)
  have happ := hs.heap.tiles.apart hb hc hbc
  unfold payloadSize
  rw [dataToBlock_blockData hs.heap hb, dataToBlock_blockData hs.heap hc]
  unfold blockData
  omega

theorem usedSum_eq_filter (h : Heap) (blocks : List ℕ) :
    h.usedSum blocks =
      ((blocks.filter fun b => h.hdr b .magic = blockMagicUsed).map (h.hdr · .size)).sum := by
  induction blocks with
  | nil => rfl
  | cons b bs ih =>
    rw [Heap.usedSum_cons, ih, Heap.usedSize, List.filter_cons]
    split <;> simp_all

/-- After every call, whatever the clients did before: the blocks tile the heap, the free list is
a doubly linked list of exactly the free blocks, the counter is the sum of the used ones, the live
payloads are apart from each other, inside the heap and as long as asked for, and the next
allocation returns. -/
theorem kmalloc_heap_invariant {mem : Bytes} {totalMemory : ℕ} {as : List HeapAction}
    (hrun : Exec Step (init mem totalMemory) as s) :
    ∃ blocks free,
      Tiles (s.heap.hdr · .size) s.heap.heapStart blocks s.heap.heapEnd ∧
      (Ring 0 s.heap.nextOf s.heap.prevOf free ∧
        (∀ b, b ∈ free ↔ b ∈ blocks ∧ s.heap.hdr b .magic = blockMagicFree) ∧
        ∀ b ∈ blocks, s.heap.hdr b .magic = blockMagicFree ∨ s.heap.hdr b .magic = blockMagicUsed) ∧
      s.heap.heapUsed =
        ((blocks.filter fun b => s.heap.hdr b .magic = blockMagicUsed).map (s.heap.hdr · .size)).sum ∧
      (s.live.Pairwise (fun x y => x.1 + s.payloadSize x.1 ≤ y.1 ∨ y.1 + s.payloadSize y.1 ≤ x.1) ∧
        ∀ p n, (p, n) ∈ s.live → s.heap.heapStart ≤ p ∧ p + s.payloadSize p ≤ s.heap.heapEnd ∧
          n ≤ s.payloadSize p) ∧
      ∀ size flags, ∃ r, Mm.kmalloc s.heap size flags = some r := by
  obtain ⟨blocks, free, hs⟩ := hrun.invariant step_inv ⟨_, _, init_inv mem totalMemory⟩
  refine ⟨blocks, free, hs.heap.tiles, ⟨hs.heap.ring, hs.heap.mem_free, hs.heap.magic⟩, ?_,
    ⟨hs.payload_apart, fun p n hpn => hs.payload_bounds hpn⟩, ?_⟩
  · rw [hs.heap.used_eq, usedSum_eq_filter]
  · intro size flags
    obtain ⟨ptr, h', heq, _⟩ := kmalloc_effect hs.heap size flags
    exact ⟨_, heq⟩

theorem kmalloc_heap_invariant_alloc :
    ∃ s : HeapSystem, Exec Step (init (fun _ => 0) 0x40000000) [.kmalloc 100 0, .write 0x42000020 7] s ∧
      s.live = [(0x42000020, 100)] ∧
      ∃ blocks free, Tiles (s.heap.hdr · .size) s.heap.heapStart blocks s.heap.heapEnd ∧
        Ring 0 s.heap.nextOf s.heap.prevOf free := by
  have hptr : (Mm.kmalloc (init (fun _ => 0) 0x40000000).heap 100 0).map Prod.fst =
      some 0x42000020 := by decide +kernel
  obtain ⟨⟨ptr, h⟩, hcall, rfl⟩ := Option.map_eq_some_iff.mp hptr
  have hlive : (0x42000020, 100) ∈ [((0x42000020 : ℕ), (100 : ℕ))] := List.mem_singleton_self _
  have hrun : Exec Step (init (fun _ => 0) 0x40000000) [.kmalloc 100 0, .write 0x42000020 7] _ :=
    .cons (.kmalloc hcall) (.cons (.write hlive (by decide) (by decide)) (.nil _))
  obtain ⟨blocks, free, htiles, hfree, _⟩ := kmalloc_heap_invariant hrun
  exact ⟨_, hrun, rfl, blocks, free, htiles, hfree.1⟩

/-- Three calls in a row, with what each of them returned. -/
theorem three_calls {first : Option (ℕ × Heap)} {second : ℕ × Heap → Option (ℕ × Heap)}
    {third : ℕ × Heap → ℕ × Heap → Option (ℕ × Heap)} {p q r : ℕ}
    (hcalls : (first.bind fun x => (second x).bind fun y => (third x y).map fun z => (x.1, y.1, z.1)) =
      some (p, q, r)) :
    ∃ h h' h'', first = some (p, h) ∧ second (p, h) = some (q, h') ∧
      third (p, h) (q, h') = some (r, h'') := by
  obtain ⟨⟨p', h⟩, hfirst, hcalls⟩ := Option.bind_eq_some_iff.mp hcalls
  obtain ⟨⟨q', h'⟩, hsecond, hcalls⟩ := Option.bind_eq_some_iff.mp hcalls
  obtain ⟨⟨r', h''⟩, hthird, heq⟩ := Option.map_eq_some_iff.mp hcalls
  obtain ⟨rfl, hrest⟩ := Prod.mk.inj heq
  obtain ⟨rfl, rfl⟩ := Prod.mk.inj hrest
  exact ⟨h, h', h'', hfirst, hsecond, hthird⟩

end HeapSystem

end GcAos.Mm
