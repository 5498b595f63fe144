import GcAos.Mm.KmallocRun

/-! Frees of what has been freed before. -/

namespace GcAos.Mm
open Lib

/-- The heap with its clients, and the pointers that have been handed out and freed since, and not
been handed out again. -/
structure HeapHistory where
  sys : HeapSystem
  stale : List ℕ

namespace HeapHistory

def init (mem : Bytes) (totalMemory : ℕ) : HeapHistory := ⟨.init mem totalMemory, []⟩

/-- Clients may also free what is freed already. They do not store the mark of a used block where the
header of a stale pointer has its magic number. -/
inductive Step : HeapHistory → HeapAction → HeapHistory → Prop
  | kmalloc {s : HeapHistory} {size flags ptr : ℕ} {h : Heap}
      (hcall : Mm.kmalloc s.sys.heap size flags = some (ptr, h)) :
      Step s (.kmalloc size flags)
        { sys :=
            { heap := h
              live := if ptr = 0 then s.sys.live else (ptr, size) :: s.sys.live }
          stale := s.stale.filter (· ≠ ptr) }
  | kfree {s : HeapHistory} {ptr : ℕ}
      (hptr : ptr = 0 ∨ ptr ∈ s.sys.live.map Prod.fst ∨ ptr ∈ s.stale) :
      Step s (.kfree ptr)
        { sys :=
            { heap := Mm.kfree s.sys.heap ptr
              live := s.sys.live.filter (·.1 ≠ ptr) }
          stale := if ptr ∈ s.sys.live.map Prod.fst then ptr :: s.stale else s.stale }
  | write {s : HeapHistory} {addr ptr size : ℕ} {byte : UInt8} (hlive : (ptr, size) ∈ s.sys.live)
      (hlo : ptr ≤ addr) (hhi : addr < ptr + size)
      (hmark : ∀ p ∈ s.stale,
        Heap.hdr { s.sys.heap with mem := Function.update s.sys.heap.mem addr byte } (dataToBlock p)
          .magic ≠ blockMagicUsed) :
      Step s (.write addr byte)
        { s with sys :=
          { s.sys with heap :=
            { s.sys.heap with mem := Function.update s.sys.heap.mem addr byte } } }

def Stale (h : Heap) (p : ℕ) : Prop :=
  ∃ x, p = blockData x ∧ dataToBlock p = x ∧ 32 ∣ x ∧ x ≠ 0 ∧ h.hdr x .magic ≠ blockMagicUsed

theorem Stale.kfree_eq {h : Heap} {p : ℕ} (hp : Stale h p) : kfree h p = h := by
  obtain ⟨x, hpx, hdata, -, -, hmagic⟩ := hp
  have hp0 : p ≠ 0 := hpx ▸ Nat.ne_of_gt (Nat.add_pos_right x (by decide))
  rw [kfree, if_neg hp0, hdata, if_pos hmagic]

structure Inv (s : HeapHistory) (blocks free : List ℕ) : Prop where
  sys : s.sys.Inv blocks free
  stale : ∀ p ∈ s.stale, Stale s.sys.heap p

variable {s : HeapHistory} {h : Heap} {b p : ℕ} {blocks free : List ℕ}

theorem Stale.taken {total : ℕ} {blocks' free' : List ℕ} {h' : Heap} (hp : Stale h p)
    (ht : h.Taken h' b total blocks free blocks' free') (hne : p ≠ blockData b) : Stale h' p := by
  obtain ⟨x, hpx, hdata, hx32, hx0, hmagic⟩ := hp
  have hxb : x ≠ b := by
    rintro rfl
    exact hne hpx
  exact ⟨x, hpx, hdata, hx32, hx0, ht.cell x hx32 hx0 hxb hmagic⟩

theorem Stale.freed {blocks' free' : List ℕ} {h' : Heap} (hp : Stale h p)
    (hf : h.Freed h' b blocks free blocks' free') : Stale h' p := by
  obtain ⟨x, hpx, hdata, hx32, hx0, hmagic⟩ := hp
  exact ⟨x, hpx, hdata, hx32, hx0, hf.cell x hx32 hx0 hmagic⟩

theorem step_inv (s : HeapHistory) (a : HeapAction) (t : HeapHistory)
    (hs : ∃ blocks free, s.Inv blocks free) (hstep : Step s a t) :
    ∃ blocks free, t.Inv blocks free := by
  obtain ⟨blocks, free, hs⟩ := hs
  cases hstep with
  | @kmalloc size flags ptr h hcall =>
    rcases HeapSystem.kmalloc_cases hs.sys.heap hcall with heq | ⟨b, hb, blocks', free', hfit, rfl, ht, heq⟩
    · rw [heq]
      exact ⟨blocks, free, hs.sys, fun p hp => hs.stale p (List.mem_filter.mp hp).1⟩
    · rw [heq]
      refine ⟨blocks', free', hs.sys.taken ht hb hfit (size_le_roundedSize size), fun p hp => ?_⟩
      -- the pointer that is handed out is stale no more
      obtain ⟨hp, hne⟩ := List.mem_filter.mp hp
      exact (hs.stale p hp).taken ht (of_decide_eq_true hne)
  | @kfree ptr hptr =>
    by_cases hlive : ptr ∈ s.sys.live.map Prod.fst
    · obtain ⟨⟨q, m⟩, hqm, rfl⟩ := List.mem_map.mp hlive
      obtain ⟨b, hb, hq, hbm, -⟩ := hs.sys.live q m hqm
      dsimp only at hq hlive ⊢
      subst hq
      obtain ⟨blocks', free', hf⟩ := kfree_effect hs.sys.heap hb hbm
      rw [if_pos hlive]
      refine ⟨blocks', free', hs.sys.freed hf, fun p hp => ?_⟩
      rcases List.mem_cons.mp hp with rfl | hp
      · refine ⟨b, rfl, dataToBlock_blockData hs.sys.heap hb, hs.sys.heap.aligned b hb,
          hs.sys.heap.block_ne_zero hb, ?_⟩
        rw [hf.self_magic]
        exact Heap.magicFree_ne_used
      · exact (hs.stale p hp).freed hf
    · have hsame : Mm.kfree s.sys.heap ptr = s.sys.heap := by
        rcases hptr with rfl | hmem | hstale
        · rw [Mm.kfree, if_pos rfl]
        · exact absurd hmem hlive
        · exact (hs.stale ptr hstale).kfree_eq
      rw [hsame, if_neg hlive]
      exact ⟨blocks, free, ⟨hs.sys.heap, fun p n hpn => hs.sys.live p n (List.mem_filter.mp hpn).1,
        hs.sys.nodup.sublist (List.filter_sublist.map _)⟩, hs.stale⟩
  | write hlive hlo hhi hmark =>
    refine ⟨blocks, free, HeapSystem.write_inv hs.sys hlive hlo hhi, fun p hp => ?_⟩
    obtain ⟨x, hpx, hdata, hx32, hx0, -⟩ := hs.stale p hp
    have hp' := hmark p hp
    rw [hdata] at hp'
    exact ⟨x, hpx, hdata, hx32, hx0, hp'⟩

/-- After any history, a second free changes nothing. -/
theorem kfree_stale {mem : Bytes} {totalMemory : ℕ} {as : List HeapAction}
    (hrun : Exec Step (init mem totalMemory) as s) (hp : p ∈ s.stale) :
    kfree s.sys.heap p = s.sys.heap := by
  have hstart : (init mem totalMemory).Inv [heapBase] [heapBase] :=
    ⟨HeapSystem.init_inv mem totalMemory, by simp [init]⟩
  obtain ⟨blocks, free, hs⟩ := hrun.invariant step_inv ⟨_, _, hstart⟩
  exact (hs.stale p hp).kfree_eq

theorem kfree_stale_twice : ∃ s : HeapHistory,
    Exec Step (init (fun _ => 0) 0x40000000) [.kmalloc 100 0, .kfree 0x42000020] s ∧
      0x42000020 ∈ s.stale ∧ kfree s.sys.heap 0x42000020 = s.sys.heap := by
  have hptr : (Mm.kmalloc (init (fun _ => 0) 0x40000000).sys.heap 100 0).map Prod.fst =
      some 0x42000020 := by decide +kernel
  obtain ⟨⟨ptr, h⟩, hcall, rfl⟩ := Option.map_eq_some_iff.mp hptr
  have hlive : 0x42000020 ∈ [((0x42000020 : ℕ), (100 : ℕ))].map Prod.fst := List.mem_singleton_self _
  have hrun : Exec Step (init (fun _ => 0) 0x40000000) [.kmalloc 100 0, .kfree 0x42000020] _ :=
    .cons (.kmalloc hcall) (.cons (.kfree (.inr (.inl hlive))) (.nil _))
  have hstale : 0x42000020 ∈ ([0x42000020] : List ℕ) := List.mem_singleton_self _
  exact ⟨_, hrun, hstale, kfree_stale hrun hstale⟩

end HeapHistory

end GcAos.Mm
