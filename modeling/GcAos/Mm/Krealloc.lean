import GcAos.Mm.KmallocRun

/-! `krealloc`, and what the calls of the kernel heap do to the allocations that are live. -/

namespace GcAos.Mm
open Lib

def krealloc (h : Heap) (ptr newSize flags : ℕ) : Option (ℕ × Heap) :=
  if ptr = 0 then kmalloc h newSize flags
  else if newSize = 0 then some (0, kfree h ptr)
  else
    let oldSize := (h.hdr (dataToBlock ptr) .size + 2 ^ 64 - blockHeader.size) % 2 ^ 64
    if newSize ≤ oldSize then some (ptr, h)
    else
      (kmalloc h newSize flags).map fun r =>
        if r.1 = 0 then (0, r.2)
        else (r.1, kfree { r.2 with mem := r.2.mem.copy r.1 ptr oldSize } ptr)

inductive HeapCall
  | action (a : HeapAction)
  | krealloc (ptr newSize flags : ℕ)

namespace HeapSystem

/-- The clients after a `krealloc` that returned `ret`: a new size of 0 frees, and a null pointer
means that nothing has happened otherwise. -/
def afterRealloc (s : HeapSystem) (ptr newSize ret : ℕ) (h : Heap) : HeapSystem where
  heap := h
  live :=
    if ptr ≠ 0 ∧ newSize = 0 then s.live.filter (·.1 ≠ ptr)
    else if ret = 0 then s.live
    else (ret, newSize) :: s.live.filter (·.1 ≠ ptr)

inductive CallStep : HeapSystem → HeapCall → HeapSystem → Prop
  | action {s t : HeapSystem} {a : HeapAction} (hstep : Step s a t) : CallStep s (.action a) t
  | krealloc {s : HeapSystem} {ptr newSize flags ret : ℕ} {h : Heap}
      (hptr : ptr = 0 ∨ ptr ∈ s.live.map Prod.fst)
      (hcall : Mm.krealloc s.heap ptr newSize flags = some (ret, h)) :
      CallStep s (.krealloc ptr newSize flags) (s.afterRealloc ptr newSize ret h)

variable {s t : HeapSystem} {h : Heap} {b ptr newSize flags ret p m : ℕ} {blocks free : List ℕ}

theorem Inv.live_ne_zero (hs : s.Inv blocks free) (hp : (p, m) ∈ s.live) : p ≠ 0 := by
  obtain ⟨b, -, rfl, -⟩ := hs.live p m hp
  exact Nat.ne_of_gt (Nat.add_pos_right b (by decide))

theorem Inv.block_of_live (hs : s.Inv blocks free) (hp : (p, m) ∈ s.live) :
    ∃ b ∈ blocks, p = blockData b ∧ dataToBlock p = b ∧ s.heap.hdr b .magic = blockMagicUsed ∧
      m ≤ s.payloadSize p ∧ b + s.heap.hdr b .size = p + s.payloadSize p := by
  obtain ⟨b, hb, rfl, hmagic, hfit⟩ := hs.live p m hp
  have hdata := dataToBlock_blockData hs.heap hb
  have hlarge := hs.heap.header_fits b hb
  refine ⟨b, hb, rfl, hdata, hmagic, ?_, ?_⟩
  · unfold payloadSize
    rw [hdata]
    omega
  · unfold payloadSize
    rw [hdata]
    unfold blockData
    omega

def Kept (s t : HeapSystem) (p : ℕ) : Prop :=
  t.payloadSize p = s.payloadSize p ∧
    ∀ i < s.payloadSize p, t.heap.mem (p + i) = s.heap.mem (p + i)

theorem Inv.kept_of_block (hs : s.Inv blocks free) (hp : (p, m) ∈ s.live)
    (hsize : t.heap.hdr (dataToBlock p) .size = s.heap.hdr (dataToBlock p) .size)
    (hbytes : s.heap.SamePayload t.heap (dataToBlock p)) : Kept s t p := by
  obtain ⟨b, hb, hpb, hdata, -, -, hend⟩ := hs.block_of_live hp
  rw [hdata] at hsize hbytes
  refine ⟨?_, fun i hi => hbytes (p + i) ?_ ?_⟩
  · unfold payloadSize
    rw [hdata, hsize]
  · rw [hpb]
    exact Nat.le_add_right _ i
  · rw [hend]
    omega

theorem Inv.block_ne_of_free (hs : s.Inv blocks free) (hb : b ∈ free)
    (hmagic : s.heap.hdr ptr .magic = blockMagicUsed) : ptr ≠ b := by
  rintro rfl
  exact Heap.magicFree_ne_used (((hs.heap.mem_free ptr).mp hb).2.symm.trans hmagic)

theorem Inv.kept_taken (hs : s.Inv blocks free) {total : ℕ} {blocks' free' : List ℕ}
    (ht : s.heap.Taken t.heap b total blocks free blocks' free') (hb : b ∈ free)
    (hp : (p, m) ∈ s.live) : Kept s t p := by
  obtain ⟨c, hc, hpc, hdata, hmagic, -⟩ := hs.block_of_live hp
  have hcb := hs.block_ne_of_free hb hmagic
  refine hs.kept_of_block hp ?_ ?_
  · rw [hdata]
    exact (ht.other c hc hcb).2.2
  · rw [hdata]
    exact ht.bytes c hc hcb

theorem Inv.kept_freed (hs : s.Inv blocks free) {blocks' free' : List ℕ}
    (hf : s.heap.Freed t.heap b blocks free blocks' free') (hp : (p, m) ∈ s.live)
    (hne : p ≠ blockData b) : Kept s t p := by
  obtain ⟨c, hc, hpc, hdata, hmagic, -⟩ := hs.block_of_live hp
  have hcb : c ≠ b := by
    rintro rfl
    exact hne hpc
  refine hs.kept_of_block hp ?_ ?_
  · rw [hdata]
    exact (hf.other c (hf.used c hc hcb hmagic) hcb).2.2
  · rw [hdata]
    exact hf.bytes c hc hcb

theorem Inv.kept_overwrite (hs : s.Inv blocks free) (hb : b ∈ blocks) {mem : Bytes}
    (hmem : ∀ i, i < blockData b ∨ b + s.heap.hdr b .size ≤ i → mem i = s.heap.mem i)
    (hp : (p, m) ∈ s.live) (hne : p ≠ blockData b) :
    Kept s { s with heap := { s.heap with mem } } p := by
  obtain ⟨c, hc, hpc, hdata, -, -, hend⟩ := hs.block_of_live hp
  have hcb : c ≠ b := by
    rintro rfl
    exact hne hpc
  have hsize : ({ s.heap with mem } : Heap).hdr c .size = s.heap.hdr c .size :=
    Heap.hdr_of_payload hs.heap hb hc hmem .size
  refine hs.kept_of_block hp ?_ ?_
  · rw [hdata]
    exact hsize
  · rw [hdata]
    intro i hlo hhi
    apply hmem
    have happ := hs.heap.tiles.apart hc hb hcb
    unfold blockData at *
    omega

theorem Kept.trans {u : HeapSystem} (h : Kept s t p) (h' : Kept t u p) : Kept s u p := by
  refine ⟨h'.1.trans h.1, fun i hi => ?_⟩
  have hi' : i < t.payloadSize p := by rwa [h.1]
  exact (h'.2 i hi').trans (h.2 i hi)

/-! ## `_kmalloc` -/

theorem Inv.kmalloc_exact (hs : s.Inv blocks free) (size flags : ℕ) :
    ∃ ptr h', Mm.kmalloc s.heap size flags = some (ptr, h') ∧
      (ptr = 0 ↔ size = 0 ∨ maxAlloc < size ∨ ∀ b ∈ free, s.heap.hdr b .size < roundedSize size) ∧
      (ptr = 0 → h' = s.heap) ∧
      (ptr ≠ 0 → ∃ b ∈ free, ptr = blockData b ∧ ∃ blocks' free', h'.Inv blocks' free' ∧
        (s.heap.TakenWhole h' b (roundedSize size) blocks free blocks' free' ∨
          s.heap.TakenPart h' b (roundedSize size) blocks free blocks' free') ∧
        (∀ d ∈ blocks, d ≠ b → d ∈ blocks' ∧ h'.hdr d .magic = s.heap.hdr d .magic ∧
          h'.hdr d .size = s.heap.hdr d .size) ∧
        ∀ p m, (p, m) ∈ s.live → ∀ i < s.payloadSize p, h'.mem (p + i) = s.heap.mem (p + i)) := by
  obtain ⟨ptr, h', hcall, hres⟩ := kmalloc_effect hs.heap size flags
  refine ⟨ptr, h', hcall, ?_⟩
  rcases hres with ⟨rfl, rfl, hwhy⟩ | ⟨hsize, hle, b, blocks', free', hb, hfit, rfl, ht⟩
  · exact ⟨iff_of_true rfl hwhy, fun _ => rfl, fun hne => absurd rfl hne⟩
  · have hptr : blockData b ≠ 0 := Nat.ne_of_gt (Nat.add_pos_right b (by decide))
    refine ⟨iff_of_false hptr ?_, fun h0 => absurd h0 hptr, fun _ => ⟨b, hb, rfl, blocks', free',
      ht.inv, ht.shape, ht.other, fun p m hp => ?_⟩⟩
    · rintro (h0 | hmax | hall)
      · exact hsize h0
      · omega
      · exact absurd (hall b hb) (by omega)
    · exact (hs.kept_taken (t := ⟨h', s.live⟩) ht hb hp).2

/-! ## `krealloc` -/

theorem Inv.krealloc_cases (hs : s.Inv blocks free) (hp : (p, m) ∈ s.live) (hn : newSize ≠ 0)
    (flags : ℕ) :
    (newSize ≤ s.payloadSize p ∧ Mm.krealloc s.heap p newSize flags = some (p, s.heap)) ∨
      Mm.krealloc s.heap p newSize flags = some (0, s.heap) ∨
      (s.payloadSize p < newSize ∧ ∃ b ∈ free, ∃ blocks' free' h,
        roundedSize newSize ≤ s.heap.hdr b .size ∧
        s.heap.Taken h b (roundedSize newSize) blocks free blocks' free' ∧
        Mm.krealloc s.heap p newSize flags =
          some (blockData b,
            kfree { h with mem := h.mem.copy (blockData b) p (s.payloadSize p) } p)) := by
  obtain ⟨b, hb, -, hdata, hmagic, -, -⟩ := hs.block_of_live hp
  have hlt := hs.heap.block_lt hb
  have hfit := hs.heap.header_fits b hb
  have hold : (s.heap.hdr (dataToBlock p) .size + 2 ^ 64 - blockHeader.size) % 2 ^ 64 =
      s.payloadSize p := by
    unfold payloadSize
    rw [hdata]
    omega
  unfold Mm.krealloc
  rw [if_neg (hs.live_ne_zero hp), if_neg hn, hold]
  dsimp only
  by_cases hle : newSize ≤ s.payloadSize p
  · exact .inl ⟨hle, by rw [if_pos hle]⟩
  · rw [if_neg hle]
    obtain ⟨ptr, h, hcall, hres⟩ := kmalloc_effect hs.heap newSize flags
    rw [hcall, Option.map_some]
    rcases hres with ⟨rfl, rfl, -⟩ | ⟨-, -, c, blocks', free', hc, hlarge, rfl, ht⟩
    · exact .inr (.inl rfl)
    · have hptr : blockData c ≠ 0 := Nat.ne_of_gt (Nat.add_pos_right c (by decide))
      refine .inr (.inr ⟨not_le.mp hle, c, hc, blocks', free', h, hlarge, ht, ?_⟩)
      dsimp only
      rw [if_neg hptr]

/-- What `krealloc` has done when it has returned `ret`. -/
structure Reallocated (s t : HeapSystem) (p newSize ret : ℕ) : Prop where
  live : (ret, newSize) ∈ t.live
  fits : newSize ≤ t.payloadSize ret
  bytes : ∀ i < min newSize (s.payloadSize p), t.heap.mem (ret + i) = s.heap.mem (p + i)
  gone : ret ≠ p → p ∉ t.live.map Prod.fst
  others : ∀ q k, (q, k) ∈ s.live → q ≠ p → (q, k) ∈ t.live ∧ q ≠ ret ∧ Kept s t q

theorem Inv.release (hs : s.Inv blocks free) (hp : (p, m) ∈ s.live)
    (ht : t = ⟨kfree s.heap p, s.live.filter (·.1 ≠ p)⟩) :
    (∃ blocks' free', t.Inv blocks' free') ∧ p ∉ t.live.map Prod.fst ∧
      ∀ q k, (q, k) ∈ s.live → q ≠ p → (q, k) ∈ t.live ∧ Kept s t q := by
  obtain ⟨b, hb, hpb, -, hmagic, -, -⟩ := hs.block_of_live hp
  obtain ⟨blocks', free', hf⟩ := kfree_effect hs.heap hb hmagic
  rw [← hpb] at hf
  have hheap : t.heap = kfree s.heap p := by rw [ht]
  have hi := hs.freed hf
  rw [← hpb, ← ht] at hi
  rw [← hheap] at hf
  refine ⟨⟨_, _, hi⟩, ?_, fun q k hq hne => ⟨?_, hs.kept_freed hf hq (hpb ▸ hne)⟩⟩
  · rw [ht]
    intro hmem
    obtain ⟨⟨q, k⟩, hqk, rfl⟩ := List.mem_map.mp hmem
    have hne := (List.mem_filter.mp hqk).2
    simp at hne
  · rw [ht]
    exact List.mem_filter.mpr ⟨hq, by simpa using hne⟩

theorem Inv.copied (hs : s.Inv blocks free) (hp : (p, m) ∈ s.live)
    (hlt : s.payloadSize p < newSize) {blocks' free' : List ℕ} (hb : b ∈ free)
    (hfit : roundedSize newSize ≤ s.heap.hdr b .size)
    (ht : s.heap.Taken h b (roundedSize newSize) blocks free blocks' free')
    (hcopy : t = ⟨{ h with mem := h.mem.copy (blockData b) p (s.payloadSize p) },
      (blockData b, newSize) :: s.live⟩) :
    t.Inv blocks' free' ∧ p ≠ blockData b ∧
      (∀ q k, (q, k) ∈ s.live → q ≠ blockData b ∧ Kept s t q) ∧
      ∀ i < s.payloadSize p, t.heap.mem (blockData b + i) = s.heap.mem (p + i) := by
  have hheld : ∀ q k, (q, k) ∈ s.live → q ≠ blockData b := by
    intro q k hq
    obtain ⟨d, -, hqd, -, hdm, -⟩ := hs.block_of_live hq
    rw [hqd]
    exact fun heq => hs.block_ne_of_free hb hdm (Nat.add_right_cancel heq)
  obtain ⟨c, hc, hpc, -, hmagic, -, hend⟩ := hs.block_of_live hp
  have hcb := hs.block_ne_of_free hb hmagic
  obtain ⟨s₁, hs₁⟩ : ∃ s₁ : HeapSystem, s₁ = ⟨h, (blockData b, newSize) :: s.live⟩ := ⟨_, rfl⟩
  have hheap₁ : s₁.heap = h := by rw [hs₁]
  have hi₁ : s₁.Inv blocks' free' := by
    rw [hs₁]
    exact hs.taken ht hb hfit (size_le_roundedSize newSize)
  have hkept₁ : ∀ q k, (q, k) ∈ s.live → Kept s s₁ q := by
    intro q k hq
    rw [← hheap₁] at ht
    exact hs.kept_taken ht hb hq
  -- the copy stays inside the new payload, and reads the old one
  obtain ⟨hc', -, hcs⟩ := ht.other c hc hcb
  have happ := ht.inv.tiles.apart ht.self_mem hc' (Ne.symm hcb)
  have hnew : newSize + blockHeader.size ≤ h.hdr b .size :=
    (size_le_roundedSize newSize).trans (ht.self_size_ge hfit)
  have houtside : ∀ i, i < blockData b ∨ b + s₁.heap.hdr b .size ≤ i →
      h.mem.copy (blockData b) p (s.payloadSize p) i = s₁.heap.mem i := by
    rw [hheap₁]
    intro i hi
    apply Bytes.copy_of_outside
    unfold blockData at *
    omega
  have ht₁ : t = { s₁ with heap := { s₁.heap with
      mem := h.mem.copy (blockData b) p (s.payloadSize p) } } := by rw [hcopy, hs₁]
  refine ⟨?_, hheld p m hp, fun q k hq => ⟨hheld q k hq, (hkept₁ q k hq).trans ?_⟩, fun i hi => ?_⟩
  · rw [ht₁]
    exact hi₁.overwrite ht.self_mem houtside
  · rw [ht₁]
    have hq₁ : (q, k) ∈ s₁.live := by
      rw [hs₁]
      exact List.mem_cons_of_mem _ hq
    exact hi₁.kept_overwrite ht.self_mem houtside hq₁ (hheld q k hq)
  · have hapart : p + s.payloadSize p ≤ blockData b ∨ blockData b + s.payloadSize p ≤ p := by
      unfold blockData at *
      omega
    have hmem : t.heap.mem = h.mem.copy (blockData b) p (s.payloadSize p) := by rw [hcopy]
    rw [hmem, ← (hkept₁ p m hp).2 i hi, hheap₁]
    exact Bytes.copy_of_mem hapart hi

theorem Inv.realloc_moved (hs : s.Inv blocks free) (hp : (p, m) ∈ s.live) (hn : newSize ≠ 0)
    (hlt : s.payloadSize p < newSize) {blocks' free' : List ℕ} (hb : b ∈ free)
    (hfit : roundedSize newSize ≤ s.heap.hdr b .size)
    (ht : s.heap.Taken h b (roundedSize newSize) blocks free blocks' free')
    (heq : t = s.afterRealloc p newSize (blockData b)
      (kfree { h with mem := h.mem.copy (blockData b) p (s.payloadSize p) } p)) :
    (∃ blocks'' free'', t.Inv blocks'' free'') ∧ Reallocated s t p newSize (blockData b) := by
  have hptr : blockData b ≠ 0 := Nat.ne_of_gt (Nat.add_pos_right b (by decide))
  obtain ⟨s₁, hs₁⟩ : ∃ s₁ : HeapSystem,
      s₁ = ⟨{ h with mem := h.mem.copy (blockData b) p (s.payloadSize p) },
        (blockData b, newSize) :: s.live⟩ := ⟨_, rfl⟩
  obtain ⟨hi₁, hpne, hkept, hbytes⟩ := hs.copied hp hlt hb hfit ht hs₁
  have hq₁ : (blockData b, newSize) ∈ s₁.live := by
    rw [hs₁]
    exact List.mem_cons_self
  have hold₁ : ∀ q k, (q, k) ∈ s.live → (q, k) ∈ s₁.live := by
    rw [hs₁]
    exact fun q k hq => List.mem_cons_of_mem _ hq
  have ht₁ : t = ⟨kfree s₁.heap p, s₁.live.filter (·.1 ≠ p)⟩ := by
    rw [heq, hs₁, afterRealloc, if_neg (fun hcon => hn hcon.2), if_neg hptr]
    dsimp only
    rw [List.filter_cons_of_pos (by simpa using hpne.symm)]
  obtain ⟨⟨blocks'', free'', hi₂⟩, hgone, hothers⟩ := hi₁.release (hold₁ p m hp) ht₁
  obtain ⟨hqt, hqkept⟩ := hothers _ _ hq₁ hpne.symm
  obtain ⟨-, -, -, -, -, hfits₁, -⟩ := hi₁.block_of_live hq₁
  obtain ⟨-, -, -, -, -, hfits₂, -⟩ := hi₂.block_of_live hqt
  refine ⟨⟨_, _, hi₂⟩, hqt, hfits₂, fun i hi => ?_, fun _ => hgone, fun q k hq hne => ?_⟩
  · have hip : i < s.payloadSize p := lt_of_lt_of_le hi (min_le_right _ _)
    exact (hqkept.2 i (by omega)).trans (hbytes i hip)
  · obtain ⟨hqt', hkept'⟩ := hothers q k (hold₁ q k hq) hne
    exact ⟨hqt', (hkept q k hq).1, (hkept q k hq).2.trans hkept'⟩

theorem Inv.realloc_in_place (hs : s.Inv blocks free) (hp : (p, m) ∈ s.live) (hn : newSize ≠ 0)
    (hle : newSize ≤ s.payloadSize p) (heq : t = s.afterRealloc p newSize p s.heap) :
    t.Inv blocks free ∧ Reallocated s t p newSize p := by
  obtain ⟨b, hb, hpb, hdata, hmagic, -, hend⟩ := hs.block_of_live hp
  have ht : t = ⟨s.heap, (p, newSize) :: s.live.filter (·.1 ≠ p)⟩ := by
    rw [heq, afterRealloc, if_neg (fun hcon => hn hcon.2), if_neg (hs.live_ne_zero hp)]
  have hheap : t.heap = s.heap := by rw [ht]
  have hsize : t.payloadSize = s.payloadSize := by
    unfold payloadSize
    rw [hheap]
  have hlive : (p, newSize) ∈ t.live := by
    rw [ht]
    exact List.mem_cons_self
  refine ⟨?_, hlive, by rwa [hsize], fun i _ => by rw [hheap], fun hne => absurd rfl hne,
    fun q k hq hne => ⟨?_, hne, congrFun hsize q, fun i _ => by rw [hheap]⟩⟩
  · rw [ht]
    refine ⟨hs.heap, fun q k hqk => ?_, List.nodup_cons.mpr ⟨fun hmem => ?_, ?_⟩⟩
    · rcases List.mem_cons.mp hqk with hq | hq
      · cases hq
        refine ⟨b, hb, hpb, hmagic, ?_⟩
        have hfit := hs.heap.header_fits b hb
        unfold payloadSize at hle
        rw [hdata] at hle
        show newSize + blockHeader.size ≤ s.heap.hdr b .size
        omega
      · exact hs.live q k (List.mem_filter.mp hq).1
    · obtain ⟨⟨q, k⟩, hqk, rfl⟩ := List.mem_map.mp hmem
      have hne := (List.mem_filter.mp hqk).2
      simp at hne
    · exact hs.nodup.sublist (List.filter_sublist.map _)
  · rw [ht]
    exact List.mem_cons_of_mem _ (List.mem_filter.mpr ⟨hq, by simpa using hne⟩)

theorem Inv.krealloc_spec (hs : s.Inv blocks free) (hp : (p, m) ∈ s.live) (hn : newSize ≠ 0)
    (flags : ℕ) : ∃ ret h, Mm.krealloc s.heap p newSize flags = some (ret, h) ∧
      (∃ blocks' free', (s.afterRealloc p newSize ret h).Inv blocks' free') ∧
      (ret = 0 → s.afterRealloc p newSize ret h = s) ∧
      (ret ≠ 0 → Reallocated s (s.afterRealloc p newSize ret h) p newSize ret) := by
  rcases hs.krealloc_cases hp hn flags with ⟨hle, hcall⟩ | hcall |
    ⟨hlt, b, hb, blocks', free', h, hfit, ht, hcall⟩
  · obtain ⟨hi, hre⟩ := hs.realloc_in_place hp hn hle rfl
    exact ⟨_, _, hcall, ⟨_, _, hi⟩, fun h0 => absurd h0 (hs.live_ne_zero hp), fun _ => hre⟩
  · have hsame : s.afterRealloc p newSize 0 s.heap = s := by
      rw [afterRealloc, if_neg (fun hcon => hn hcon.2), if_pos rfl]
    refine ⟨_, _, hcall, ⟨blocks, free, ?_⟩, fun _ => hsame, fun hne => absurd rfl hne⟩
    rw [hsame]
    exact hs
  · have hptr : blockData b ≠ 0 := Nat.ne_of_gt (Nat.add_pos_right b (by decide))
    obtain ⟨hi, hre⟩ := hs.realloc_moved hp hn hlt hb hfit ht rfl
    exact ⟨_, _, hcall, hi, fun h0 => absurd h0 hptr, fun _ => hre⟩

/-! ## Runs -/

theorem call_inv (s : HeapSystem) (a : HeapCall) (t : HeapSystem)
    (hs : ∃ blocks free, s.Inv blocks free) (hstep : CallStep s a t) :
    ∃ blocks free, t.Inv blocks free := by
  cases hstep with
  | action hstep => exact step_inv _ _ _ hs hstep
  | @krealloc ptr newSize flags ret h hptr hcall =>
    obtain ⟨blocks, free, hs⟩ := hs
    by_cases h0 : ptr = 0
    · rw [Mm.krealloc, if_pos h0] at hcall
      have hfilter : s.live.filter (·.1 ≠ ptr) = s.live := by
        rw [List.filter_eq_self]
        rintro ⟨p, m⟩ hp
        have hp0 := hs.live_ne_zero hp
        simpa [h0] using hp0
      have hi := kmalloc_inv hs hcall
      rw [afterRealloc, if_neg (fun hcon => hcon.1 h0), hfilter]
      exact hi
    · by_cases hn : newSize = 0
      · rw [Mm.krealloc, if_neg h0, if_pos hn] at hcall
        obtain ⟨rfl, rfl⟩ := pair_inj hcall
        rw [afterRealloc, if_pos ⟨h0, hn⟩]
        exact kfree_inv hs hptr
      · obtain ⟨⟨p, m⟩, hp, rfl⟩ := List.mem_map.mp (hptr.resolve_left h0)
        obtain ⟨ret', h', hcall', hi, -⟩ := hs.krealloc_spec hp hn flags
        obtain ⟨rfl, rfl⟩ := pair_inj (hcall'.symm.trans hcall)
        exact hi

/-- On every heap that the calls can reach, `_kmalloc` fails exactly when it must, and changes nothing
then; when it succeeds, one free block is taken, and nothing else changes. -/
theorem kmalloc_fails_iff {mem : Bytes} {totalMemory : ℕ} {calls : List HeapCall}
    (hrun : Exec CallStep (init mem totalMemory) calls s) (size flags : ℕ) :
    ∃ blocks free, s.heap.Inv blocks free ∧
      ∃ ptr h', Mm.kmalloc s.heap size flags = some (ptr, h') ∧
        (ptr = 0 ↔ size = 0 ∨ maxAlloc < size ∨ ∀ b ∈ free, s.heap.hdr b .size < roundedSize size) ∧
        (ptr = 0 → h' = s.heap) ∧
        (ptr ≠ 0 → ∃ b ∈ free, ptr = blockData b ∧ ∃ blocks' free', h'.Inv blocks' free' ∧
          (s.heap.TakenWhole h' b (roundedSize size) blocks free blocks' free' ∨
            s.heap.TakenPart h' b (roundedSize size) blocks free blocks' free') ∧
          (∀ d ∈ blocks, d ≠ b → d ∈ blocks' ∧ h'.hdr d .magic = s.heap.hdr d .magic ∧
            h'.hdr d .size = s.heap.hdr d .size) ∧
          ∀ p m, (p, m) ∈ s.live → ∀ i < s.payloadSize p, h'.mem (p + i) = s.heap.mem (p + i)) := by
  obtain ⟨blocks, free, hs⟩ := hrun.invariant call_inv ⟨_, _, init_inv mem totalMemory⟩
  exact ⟨blocks, free, hs.heap, hs.kmalloc_exact size flags⟩

theorem kmalloc_fails_iff_reuse : ∃ s blocks free,
    Exec CallStep (init (fun _ => 0) 0x40000000)
      ([.kmalloc 100 0, .kmalloc 100 0, .kfree 0x42000020].map .action) s ∧ s.heap.Inv blocks free ∧
    ∃ h', Mm.kmalloc s.heap 50 0 = some (0x42000020, h') ∧
      ∃ b ∈ free, 0x42000020 = blockData b ∧ ∃ blocks' free', h'.Inv blocks' free' ∧
        (s.heap.TakenWhole h' b (roundedSize 50) blocks free blocks' free' ∨
          s.heap.TakenPart h' b (roundedSize 50) blocks free blocks' free') := by
  have hcalls : ((Mm.kmalloc (init (fun _ => 0) 0x40000000).heap 100 0).bind fun r =>
      (Mm.kmalloc r.2 100 0).bind fun r' => (Mm.kmalloc (kfree r'.2 0x42000020) 50 0).map fun q =>
        (r.1, r'.1, q.1)) = some (0x42000020, 0x420000c0, 0x42000020) := by decide +kernel
  obtain ⟨h, h', h'', hfirst, hsecond, hlast⟩ := three_calls hcalls
  have hrun : Exec CallStep (init (fun _ => 0) 0x40000000)
      ([.kmalloc 100 0, .kmalloc 100 0, .kfree 0x42000020].map .action) _ :=
    .cons (.action (.kmalloc hfirst)) (.cons (.action (.kmalloc hsecond))
      (.cons (.action (.kfree (.inr (show 0x42000020 ∈ [0x420000c0, 0x42000020] by decide)))) (.nil _)))
  obtain ⟨blocks, free, hi, ptr, h₁, hcall, -, -, htaken⟩ := kmalloc_fails_iff hrun 50 0
  obtain ⟨rfl, rfl⟩ := pair_inj (hcall.symm.trans hlast)
  obtain ⟨b, hb, hdata, blocks', free', hi', hpart, -⟩ := htaken (by decide)
  exact ⟨_, blocks, free, hrun, hi, _, hcall, b, hb, hdata, blocks', free', hi', hpart⟩

/-- `krealloc` of a live pointer keeps the contents as far as both sizes go, and the other live
allocations; when it returns the null pointer, nothing has changed. -/
theorem krealloc_preserves {mem : Bytes} {totalMemory : ℕ} {calls : List HeapCall}
    (hrun : Exec CallStep (init mem totalMemory) calls s) (hp : (p, m) ∈ s.live) (hn : newSize ≠ 0)
    (flags : ℕ) : ∃ ret h, Mm.krealloc s.heap p newSize flags = some (ret, h) ∧
      (ret = 0 → s.afterRealloc p newSize ret h = s) ∧
      (ret ≠ 0 → Reallocated s (s.afterRealloc p newSize ret h) p newSize ret) := by
  obtain ⟨blocks, free, hs⟩ := hrun.invariant call_inv ⟨_, _, init_inv mem totalMemory⟩
  obtain ⟨ret, h, hcall, -, hnull, hre⟩ := hs.krealloc_spec hp hn flags
  exact ⟨ret, h, hcall, hnull, hre⟩

theorem krealloc_preserves_byte : ∃ s h,
    Exec CallStep (init (fun _ => 0) 0x40000000)
      [.action (.kmalloc 100 0), .action (.write 0x42000020 7)] s ∧
    Mm.krealloc s.heap 0x42000020 200 0 = some (0x420000c0, h) ∧
      Reallocated s (s.afterRealloc 0x42000020 200 0x420000c0 h) 0x42000020 200 0x420000c0 := by
  have hcalls : ((Mm.kmalloc (init (fun _ => 0) 0x40000000).heap 100 0).bind fun r =>
      (Mm.krealloc { r.2 with mem := Function.update r.2.mem 0x42000020 7 } 0x42000020 200 0).map fun r' =>
        (r.1, r'.1)) = some (0x42000020, 0x420000c0) := by decide +kernel
  obtain ⟨⟨ptr, h⟩, hcall, hcalls⟩ := Option.bind_eq_some_iff.mp hcalls
  obtain ⟨⟨ret, h'⟩, hre, heq⟩ := Option.map_eq_some_iff.mp hcalls
  obtain ⟨rfl, rfl⟩ := Prod.mk.inj heq
  have hlive : (0x42000020, 100) ∈ [((0x42000020 : ℕ), (100 : ℕ))] := List.mem_singleton_self _
  have hrun : Exec CallStep (init (fun _ => 0) 0x40000000)
      [.action (.kmalloc 100 0), .action (.write 0x42000020 7)] _ :=
    .cons (.action (.kmalloc hcall)) (.cons (.action (.write hlive (by decide) (by decide))) (.nil _))
  have hsize : 200 ≠ 0 := by decide
  obtain ⟨ret, h'', hre', -, hmoved⟩ := krealloc_preserves hrun hlive hsize 0
  obtain ⟨rfl, rfl⟩ := pair_inj (hre'.symm.trans hre)
  exact ⟨_, h'', hrun, hre', hmoved (by decide)⟩

end HeapSystem

end GcAos.Mm
