import GcAos.Lib.Bits
import GcAos.Libc.Malloc

/-! The allocator over every sequence of calls. -/

namespace GcAos.Libc
open Lib

variable {s t : Heap} {c : Program} {blocks : List (ℕ × ℕ)} {b b' : ℕ × ℕ} {p n : ℕ} {size : UInt64}

theorem align_toNat (x : UInt64) : (align x).toNat = (x.toNat + 15) % 2 ^ 64 / 16 * 16 := by
  have hsum : (x + 15).toNat = (x.toNat + 15) % 2 ^ 64 := UInt64.toNat_add ..
  rw [align, UInt64.toNat_and, hsum]
  exact and_high_mask (w := 64) (k := 4) (by decide) (Nat.mod_lt _ (by decide))

theorem total_toNat (h : NoWrap s size.toNat) :
    (align (headerSize + size)).toNat = (16 + size.toNat + 15) / 16 * 16 ∧
      (s.heapUsed + align (headerSize + size)).toNat =
        s.heapUsed.toNat + (16 + size.toNat + 15) / 16 * 16 := by
  unfold NoWrap at h
  have hheader : (headerSize + size).toNat = 16 + size.toNat := by
    have hsum : (headerSize + size).toNat = (16 + size.toNat) % 2 ^ 64 := UInt64.toNat_add ..
    rw [hsum, Nat.mod_eq_of_lt (by omega)]
  have htotal : (align (headerSize + size)).toNat = (16 + size.toNat + 15) / 16 * 16 := by
    rw [align_toNat, hheader, Nat.mod_eq_of_lt (by omega)]
  refine ⟨htotal, ?_⟩
  rw [UInt64.toNat_add, htotal, Nat.mod_eq_of_lt (by omega)]

/-! The blocks, each of which is a header and what follows. -/

def Separate (b b' : ℕ × ℕ) : Prop := b.1 + 16 + b.2 ≤ b'.1 ∨ b'.1 + 16 + b'.2 ≤ b.1

instance : Std.Symm Separate := ⟨fun _ _ h => h.symm⟩

/-- The blocks, newest first, lie one behind the other below `heap_used`, and their headers give
their sizes. -/
structure BlocksInv (blocks : List (ℕ × ℕ)) (s : Heap) : Prop where
  used : s.heapUsed.toNat ≤ heapSize.toNat
  below : ∀ b ∈ blocks, b.1 + 16 + b.2 ≤ s.heapUsed.toNat
  apart : blocks.Pairwise fun b b' => b'.1 + 16 + b'.2 ≤ b.1
  sizes : ∀ b ∈ blocks, s.mem.load b.1 8 = b.2

namespace BlocksInv

theorem disjoint (h : BlocksInv blocks s) (hb : b ∈ blocks) (hb' : b' ∈ blocks) (hne : b ≠ b') :
    Separate b b' := by
  have hpairs : blocks.Pairwise Separate := h.apart.imp fun hle => Or.inr hle
  exact hpairs.forall hb hb' hne

theorem eq_of_fst (h : BlocksInv blocks s) (hb : b ∈ blocks) (hb' : b' ∈ blocks)
    (heq : b.1 = b'.1) : b = b' := by
  by_contra hne
  rcases h.disjoint hb hb' hne with hle | hle <;> omega

theorem congr (h : BlocksInv blocks s) (hused : t.heapUsed = s.heapUsed)
    (hmem : ∀ b ∈ blocks, ∀ i < 8, t.mem (b.1 + i) = s.mem (b.1 + i)) : BlocksInv blocks t where
  used := by rw [hused]; exact h.used
  below := by rw [hused]; exact h.below
  apart := h.apart
  sizes b hb := by
    rw [← h.sizes b hb]
    exact Bytes.load_congr (hmem b hb)

theorem blit (h : BlocksInv blocks s) (hb : b ∈ blocks) {a k : ℕ} {src : Bytes} (hlow : b.1 + 8 ≤ a)
    (hhigh : a + k ≤ b.1 + 16 + b.2) : BlocksInv blocks { s with mem := s.mem.blit a k src } := by
  refine h.congr rfl fun b' hb' i hi => ?_
  by_cases heq : b' = b
  · subst heq
    exact Bytes.blit_of_lt (by omega)
  · rcases h.disjoint hb' hb heq with hle | hle
    · exact Bytes.blit_of_lt (by omega)
    · exact Bytes.blit_of_le (by omega)

end BlocksInv

/-! The functions. -/

namespace Heap

theorem malloc_refused (h : s.Refused size) : s.malloc size = (s, none) := by
  unfold malloc
  rcases h with hzero | hlarge
  · rw [if_pos hzero]
  · by_cases hzero : size = 0
    · rw [if_pos hzero]
    · rw [if_neg hzero]
      exact if_pos hlarge

theorem malloc_spec (h : BlocksInv blocks s) (hsafe : ¬s.Refused size → NoWrap s size.toNat) :
    s.malloc size = (s, none) ∨ ∃ t off, s.malloc size = (t, some (off + 16)) ∧ off = s.heapUsed.toNat ∧
      BlocksInv ((off, size.toNat) :: blocks) t ∧ ∀ a < off, t.mem a = s.mem a := by
  by_cases hrefused : s.Refused size
  · exact .inl (malloc_refused hrefused)
  have hwrap := hsafe hrefused
  obtain ⟨hzero, hfits⟩ := not_or.mp hrefused
  obtain ⟨-, htotal⟩ := total_toNat hwrap
  rw [UInt64.lt_iff_toNat_lt, htotal] at hfits
  have hmalloc : s.malloc size = (⟨(s.mem.store s.heapUsed.toNat 8 size.toNat).store
      (s.heapUsed.toNat + 8) 4 1,
      s.heapUsed + align (headerSize + size)⟩, some (s.heapUsed.toNat + 16)) := by
    unfold malloc
    rw [if_neg hzero]
    exact if_neg (by rwa [UInt64.lt_iff_toNat_lt, htotal])
  refine .inr ⟨_, s.heapUsed.toNat, hmalloc, rfl, ?_, ?_⟩
  · refine ⟨?_, ?_, ?_, ?_⟩
    · dsimp only
      omega
    · dsimp only
      rw [htotal]
      refine List.forall_mem_cons.mpr ⟨by omega, fun b hb => ?_⟩
      have := h.below b hb
      omega
    · exact List.pairwise_cons.mpr ⟨h.below, h.apart⟩
    · refine List.forall_mem_cons.mpr ⟨?_, fun b hb => ?_⟩
      · dsimp only
        rw [Bytes.load_store_of_apart (by omega), Bytes.load_store, Nat.mod_eq_of_lt]
        exact size.toNat_lt
      · have := h.below b hb
        dsimp only
        rw [Bytes.load_store_of_apart (by omega), Bytes.load_store_of_apart (by omega)]
        exact h.sizes b hb
  · intro a ha
    dsimp only
    rw [Bytes.store_of_outside (by omega), Bytes.store_of_outside (by omega)]

theorem calloc_spec {nmemb : UInt64} (h : BlocksInv blocks s)
    (hsafe : ¬s.Refused (nmemb * size) → NoWrap s (nmemb.toNat * size.toNat)) :
    s.calloc nmemb size = (s, none) ∨ ∃ t off, s.calloc nmemb size = (t, some (off + 16)) ∧
      off = s.heapUsed.toNat ∧ BlocksInv ((off, nmemb.toNat * size.toNat) :: blocks) t ∧
      (∀ a < off, t.mem a = s.mem a) ∧ ∀ i < nmemb.toNat * size.toNat, t.mem (off + 16 + i) = 0 := by
  have hprod : ¬s.Refused (nmemb * size) → (nmemb * size).toNat = nmemb.toNat * size.toNat := by
    intro hrefused
    have hwrap := hsafe hrefused
    unfold NoWrap at hwrap
    rw [UInt64.toNat_mul, Nat.mod_eq_of_lt (by omega)]
  unfold calloc
  dsimp only
  have hprodsafe : ¬s.Refused (nmemb * size) → NoWrap s (nmemb * size).toNat := fun hrefused => by
    rw [hprod hrefused]
    exact hsafe hrefused
  rcases malloc_spec h hprodsafe with
    hnone | ⟨t, off, ht, hoff, hinv, hmem⟩
  · rw [hnone]
    exact .inl rfl
  · have hrefused : ¬s.Refused (nmemb * size) := fun hrefused => by
      rw [malloc_refused hrefused] at ht
      exact absurd (Prod.mk.inj ht).2.symm (Option.some_ne_none _)
    rw [hprod hrefused] at hinv ⊢
    rw [ht]
    refine .inr ⟨_, off, rfl, hoff, hinv.blit List.mem_cons_self (by omega) le_rfl, fun a ha => ?_,
      fun i hi => ?_⟩
    · dsimp only
      rw [Bytes.blit_of_lt (by omega)]
      exact hmem a ha
    · exact @Bytes.blit_of_mem t.mem (fun _ => 0) _ _ i hi

theorem free_spec (h : BlocksInv blocks s) (hb : b ∈ blocks) :
    BlocksInv blocks (s.free (some (b.1 + 16))) ∧
      ∀ a, a < b.1 ∨ b.1 + 16 ≤ a → (s.free (some (b.1 + 16))).mem a = s.mem a := by
  have hat : b.1 + 16 - 16 + 8 = b.1 + 8 := by omega
  unfold free
  dsimp only
  rw [hat]
  refine ⟨h.blit hb (by omega) (by omega), fun a ha => ?_⟩
  exact Bytes.store_of_outside (by omega)

theorem sizeOf_block (h : BlocksInv blocks s) (hb : b ∈ blocks) : s.sizeOf (b.1 + 16) = b.2 := by
  rw [sizeOf, Nat.add_sub_cancel]
  exact h.sizes b hb

theorem realloc_zero : s.realloc (some p) 0 = (s.free (some p), none) := by
  unfold realloc
  exact if_pos rfl

theorem realloc_kept (hzero : size ≠ 0) (hfits : size.toNat ≤ s.sizeOf p) :
    s.realloc (some p) size = (s, some p) := by
  unfold realloc
  dsimp only
  rw [if_neg hzero, if_pos hfits]

theorem realloc_none (hzero : size ≠ 0) (hlarge : s.sizeOf p < size.toNat)
    (hmalloc : s.malloc size = (t, none)) : s.realloc (some p) size = (t, none) := by
  unfold realloc
  dsimp only
  rw [if_neg hzero, if_neg (not_le.mpr hlarge), hmalloc]

theorem realloc_some (hzero : size ≠ 0) (hlarge : s.sizeOf p < size.toNat) {q : ℕ}
    (hmalloc : s.malloc size = (t, some q)) :
    s.realloc (some p) size =
      ({ t with mem := t.mem.blit q (t.sizeOf p) fun i => t.mem (p + i) }.free (some p), some q) := by
  unfold realloc
  dsimp only
  rw [if_neg hzero, if_neg (not_le.mpr hlarge), hmalloc]

theorem realloc_moved (h : BlocksInv blocks s) (hb : b ∈ blocks) (hlarge : b.2 < size.toNat)
    (hsafe : ¬s.Refused size → NoWrap s size.toNat) :
    s.realloc (some (b.1 + 16)) size = (s, none) ∨
    ∃ t off, s.realloc (some (b.1 + 16)) size = (t, some (off + 16)) ∧
      BlocksInv ((off, size.toNat) :: blocks) t ∧
      (∀ a < s.heapUsed.toNat, a < b.1 ∨ b.1 + 16 ≤ a → t.mem a = s.mem a) ∧
      ∀ i < b.2, t.mem (off + 16 + i) = s.mem (b.1 + 16 + i) := by
  have hzero : size ≠ 0 := by
    rintro rfl
    exact Nat.not_lt_zero _ hlarge
  have hlarge' : s.sizeOf (b.1 + 16) < size.toNat := by rwa [sizeOf_block h hb]
  rcases malloc_spec h hsafe with hnone | ⟨t, off, ht, rfl, hinv, hmem⟩
  · exact .inl (realloc_none hzero hlarge' hnone)
  · have hbelow := h.below b hb
    have hold := List.mem_cons_of_mem (s.heapUsed.toNat, size.toNat) hb
    rw [realloc_some hzero hlarge' ht]
    rw [sizeOf_block hinv hold]
    have hcopied : BlocksInv ((s.heapUsed.toNat, size.toNat) :: blocks)
        { t with mem := t.mem.blit (s.heapUsed.toNat + 16) b.2 fun i => t.mem (b.1 + 16 + i) } :=
      hinv.blit List.mem_cons_self (by dsimp only; omega) (by dsimp only; omega)
    obtain ⟨hfree, hframe⟩ := free_spec hcopied hold
    refine .inr ⟨_, _, rfl, hfree, fun a ha hout => ?_, fun i hi => ?_⟩
    · rw [hframe a hout]
      dsimp only
      rw [Bytes.blit_of_lt (by omega)]
      exact hmem a ha
    · rw [hframe _ (by omega)]
      dsimp only
      rw [Bytes.blit_of_mem hi]
      exact hmem _ (by omega)

end Heap

/-! The program. -/

structure HeapInv (blocks : List (ℕ × ℕ)) (c : Program) : Prop where
  layout : BlocksInv blocks c.heap
  owned : ∀ r ∈ c.owned, ∃ b ∈ blocks, r.1 = b.1 + 16 ∧ r.2 ≤ b.2
  ptrs : (c.owned.map Prod.fst).Nodup
  headers : ∀ h ∈ c.headers, ∃ b ∈ blocks, h = b.1

structure Good (c : Program) (call : HeapCall) : Prop where
  inv : ∃ blocks, HeapInv blocks (c.step call)
  correct : call.Correct c
  frame : ¬call.IsWrite → ∀ r ∈ c.owned, ∀ i < r.2,
    (c.step call).heap.mem (r.1 + i) = c.heap.mem (r.1 + i)

theorem BlocksInv.outside_header (h : BlocksInv blocks s) (hb : b ∈ blocks) (hb' : b' ∈ blocks) {i : ℕ}
    (hi : i < b'.2) : b'.1 + 16 + i < b.1 ∨ b.1 + 16 ≤ b'.1 + 16 + i := by
  by_cases heq : b' = b
  · subst heq
    omega
  · rcases h.disjoint hb' hb heq with hle | hle
    · exact .inl (by omega)
    · exact .inr (by omega)

namespace HeapInv

theorem ownedApart (h : HeapInv blocks c) : OwnedApart c where
  inside r hr := by
    obtain ⟨b, hb, hptr, hlen⟩ := h.owned r hr
    have hbelow := h.layout.below b hb
    have hused := h.layout.used
    omega
  apart := by
    have hptrs : c.owned.Pairwise fun r r' => r.1 ≠ r'.1 := List.pairwise_map.mp h.ptrs
    refine hptrs.imp_of_mem fun {r r'} hr hr' hne => ?_
    obtain ⟨b, hb, hptr, hlen⟩ := h.owned r hr
    obtain ⟨b', hb', hptr', hlen'⟩ := h.owned r' hr'
    have hbne : b ≠ b' := by
      rintro rfl
      exact hne (hptr.trans hptr'.symm)
    rcases h.layout.disjoint hb hb' hbne with hle | hle
    · exact .inl (by omega)
    · exact .inr (by omega)
  headers r hr x hx := by
    obtain ⟨b, hb, hptr, hlen⟩ := h.owned r hr
    obtain ⟨b', hb', rfl⟩ := h.headers x hx
    by_cases heq : b = b'
    · subst heq
      exact .inr (by omega)
    · rcases h.layout.disjoint hb hb' heq with hle | hle
      · exact .inl (by omega)
      · exact .inr (by omega)

theorem mem_ownedBut {r : ℕ × ℕ} {ptr : Option ℕ} (h : r ∈ c.ownedBut ptr) :
    r ∈ c.owned ∧ some r.1 ≠ ptr := by
  obtain ⟨hr, hne⟩ := List.mem_filter.mp h
  exact ⟨hr, of_decide_eq_true hne⟩

theorem nodup_ownedBut (h : HeapInv blocks c) (ptr : Option ℕ) :
    ((c.ownedBut ptr).map Prod.fst).Nodup :=
  h.ptrs.sublist (List.filter_sublist.map _)

theorem drop (h : HeapInv blocks c) (ptr : Option ℕ) (ht : BlocksInv blocks t) :
    HeapInv blocks { c with heap := t, owned := c.ownedBut ptr } where
  layout := ht
  owned r hr := h.owned r (mem_ownedBut hr).1
  ptrs := h.nodup_ownedBut ptr
  headers := h.headers

theorem grow (h : HeapInv blocks c) (ptr : Option ℕ) {off n : ℕ}
    (ht : BlocksInv ((off, n) :: blocks) t) :
    HeapInv ((off, n) :: blocks) (c.receive ptr n (t, some (off + 16))) where
  layout := ht
  owned := by
    refine List.forall_mem_cons.mpr ⟨⟨_, List.mem_cons_self, rfl, le_rfl⟩, fun r hr => ?_⟩
    obtain ⟨b, hb, hblock⟩ := h.owned r (mem_ownedBut hr).1
    exact ⟨b, List.mem_cons_of_mem _ hb, hblock⟩
  ptrs := by
    refine List.nodup_cons.mpr ⟨fun hmem => ?_, h.nodup_ownedBut ptr⟩
    obtain ⟨r, hr, hptr⟩ := List.mem_map.mp hmem
    obtain ⟨b, hb, hblock, -⟩ := h.owned r (mem_ownedBut hr).1
    have hbelow := (List.pairwise_cons.mp ht.apart).1 b hb
    dsimp only at hbelow hptr
    omega
  headers := by
    refine List.forall_mem_cons.mpr ⟨⟨_, List.mem_cons_self, Nat.add_sub_cancel ..⟩, fun x hx => ?_⟩
    obtain ⟨b, hb, hblock⟩ := h.headers x hx
    exact ⟨b, List.mem_cons_of_mem _ hb, hblock⟩

theorem resize (h : HeapInv blocks c) (hb : b ∈ blocks) (hn : n ≤ b.2) :
    HeapInv blocks (c.receive (some (b.1 + 16)) n (c.heap, some (b.1 + 16))) where
  layout := h.layout
  owned := List.forall_mem_cons.mpr ⟨⟨b, hb, rfl, hn⟩, fun r hr => h.owned r (mem_ownedBut hr).1⟩
  ptrs := by
    refine List.nodup_cons.mpr ⟨fun hmem => ?_, h.nodup_ownedBut _⟩
    obtain ⟨r, hr, hptr⟩ := List.mem_map.mp hmem
    exact (mem_ownedBut hr).2 (congrArg some hptr)
  headers := List.forall_mem_cons.mpr ⟨⟨b, hb, Nat.add_sub_cancel ..⟩, h.headers⟩

theorem block_of_ptr (h : HeapInv blocks c) (hp : p ∈ c.owned.map Prod.fst) : ∃ b ∈ blocks,
    p = b.1 + 16 := by
  obtain ⟨r, hr, rfl⟩ := List.mem_map.mp hp
  obtain ⟨b, hb, hptr, -⟩ := h.owned r hr
  exact ⟨b, hb, hptr⟩

theorem frame (h : HeapInv blocks c)
    (hmem : ∀ b ∈ blocks, ∀ i < b.2, t.mem (b.1 + 16 + i) = c.heap.mem (b.1 + 16 + i)) :
    ∀ r ∈ c.owned, ∀ i < r.2, t.mem (r.1 + i) = c.heap.mem (r.1 + i) := by
  intro r hr i hi
  obtain ⟨b, hb, hptr, hlen⟩ := h.owned r hr
  rw [hptr]
  exact hmem b hb i (by omega)

theorem below_used (h : HeapInv blocks c) (hb : b ∈ blocks) {i : ℕ} (hi : i < b.2) :
    b.1 + 16 + i < c.heap.heapUsed.toNat := by
  have := h.layout.below b hb
  omega

theorem malloc (h : HeapInv blocks c) (hsafe : HeapCall.Safe c (.malloc size)) :
    Good c (.malloc size) := by
  rcases Heap.malloc_spec h.layout hsafe with hnone | ⟨t, off, ht, rfl, hinv, hmem⟩
  · refine ⟨⟨blocks, ?_⟩, trivial, fun _ r hr i hi => ?_⟩
    · rw [Program.step, hnone]
      exact h
    · rw [Program.step, hnone]
      rfl
  · refine ⟨⟨_, by rw [Program.step, ht]; exact h.grow none hinv⟩, trivial, fun _ => ?_⟩
    rw [Program.step, ht]
    exact h.frame fun b hb i hi => hmem _ (h.below_used hb hi)

theorem calloc (h : HeapInv blocks c) {nmemb : UInt64} (hsafe : HeapCall.Safe c (.calloc nmemb size)) :
    Good c (.calloc nmemb size) := by
  rcases Heap.calloc_spec h.layout hsafe with hnone | ⟨t, off, ht, rfl, hinv, hmem, hzero⟩
  · refine ⟨⟨blocks, ?_⟩, fun p hp => ?_, fun _ r hr i hi => ?_⟩
    · rw [Program.step, hnone]
      exact h
    · rw [hnone] at hp
      exact absurd hp.symm (Option.some_ne_none p)
    · rw [Program.step, hnone]
      rfl
  · refine ⟨⟨_, by rw [Program.step, ht]; exact h.grow none hinv⟩, fun p hp => ?_, fun _ => ?_⟩
    · rw [ht] at hp ⊢
      obtain rfl := Option.some.inj hp
      exact hzero
    · rw [Program.step, ht]
      exact h.frame fun b hb i hi => hmem _ (h.below_used hb hi)

theorem free (h : HeapInv blocks c) {ptr : Option ℕ} (hallowed : HeapCall.Allowed c (.free ptr)) :
    Good c (.free ptr) := by
  cases ptr with
  | none => exact ⟨⟨blocks, h.drop none h.layout⟩, trivial, fun _ _ _ _ _ => rfl⟩
  | some p =>
    obtain ⟨b, hb, rfl⟩ := h.block_of_ptr (hallowed p rfl)
    obtain ⟨hinv, hmem⟩ := Heap.free_spec h.layout hb
    exact ⟨⟨blocks, h.drop _ hinv⟩, trivial, fun _ => h.frame fun b' hb' i hi =>
      hmem _ (h.layout.outside_header hb hb' hi)⟩

theorem realloc (h : HeapInv blocks c) {ptr : Option ℕ}
    (hallowed : HeapCall.Allowed c (.realloc ptr size))
    (hsafe : HeapCall.Safe c (.realloc ptr size)) : Good c (.realloc ptr size) := by
  cases ptr with
  | none =>
    have hgood : Good c (.malloc size) := h.malloc
        (hsafe fun p hp => absurd hp.symm (Option.some_ne_none p))
    by_cases hzero : size = 0
    · subst hzero
      have hmalloc : c.heap.realloc none 0 = (c.heap, none) := Heap.malloc_refused (.inl rfl)
      refine ⟨⟨blocks, ?_⟩, trivial, fun _ r hr i hi => ?_⟩
      · rw [Program.step, if_pos rfl, hmalloc]
        exact h.drop none h.layout
      · rw [Program.step, if_pos rfl, hmalloc]
    · have hstep : c.step (.realloc none size) = c.step (.malloc size) := by
        unfold Program.step
        exact if_neg hzero
      exact ⟨hstep ▸ hgood.inv, trivial, fun _ => hstep ▸ hgood.frame fun hwrite => hwrite⟩
  | some p =>
    obtain ⟨b, hb, rfl⟩ := h.block_of_ptr (hallowed p rfl)
    by_cases hzero : size = 0
    · subst hzero
      obtain ⟨hinv, hmem⟩ := Heap.free_spec h.layout hb
      refine ⟨⟨blocks, ?_⟩, fun n q _ hq => ?_, fun _ => ?_⟩
      · rw [Program.step, if_pos rfl, Heap.realloc_zero]
        exact h.drop _ hinv
      · rw [Heap.realloc_zero] at hq
        exact absurd hq.symm (Option.some_ne_none q)
      · rw [Program.step, if_pos rfl, Heap.realloc_zero]
        exact h.frame fun b' hb' i hi => hmem _ (h.layout.outside_header hb hb' hi)
    have hsize := Heap.sizeOf_block h.layout hb
    by_cases hfits : size.toNat ≤ b.2
    · have hkept := Heap.realloc_kept (s := c.heap) (p := b.1 + 16) hzero (by rwa [hsize])
      refine ⟨⟨blocks, ?_⟩, fun n q _ hq i _ => ?_, fun _ r hr i hi => ?_⟩
      · rw [Program.step, if_neg hzero, hkept]
        exact h.resize hb hfits
      · rw [hkept] at hq ⊢
        rw [← Option.some.inj hq]
      · rw [Program.step, if_neg hzero, hkept]
        rfl
    have hlarge := not_le.mp hfits
    rcases Heap.realloc_moved h.layout hb hlarge (hsafe fun p hp => by
      obtain rfl := Option.some.inj hp
      rwa [hsize]) with hnone | ⟨t, off, ht, hinv, hmem, hcopy⟩
    · refine ⟨⟨blocks, ?_⟩, fun n q _ hq => ?_, fun _ r hr i hi => ?_⟩
      · rw [Program.step, if_neg hzero, hnone]
        exact h
      · rw [hnone] at hq
        exact absurd hq.symm (Option.some_ne_none q)
      · rw [Program.step, if_neg hzero, hnone]
        rfl
    · refine ⟨⟨(off, size.toNat) :: blocks, ?_⟩, fun n q hn hq i hi => ?_, fun _ => ?_⟩
      · rw [Program.step, if_neg hzero, ht]
        exact h.grow _ hinv
      · rw [ht] at hq ⊢
        rw [← Option.some.inj hq]
        obtain ⟨b', hb', hptr, hlen⟩ := h.owned _ hn
        obtain rfl := h.layout.eq_of_fst hb hb' (Nat.add_right_cancel hptr)
        exact hcopy i (by omega)
      · rw [Program.step, if_neg hzero, ht]
        exact h.frame fun b' hb' i hi => hmem _ (h.below_used hb' hi)
          (h.layout.outside_header hb hb' hi)

theorem write (h : HeapInv blocks c) {i : ℕ} {byte : UInt8}
    (hallowed : HeapCall.Allowed c (.write p i byte)) :
    Good c (.write p i byte) := by
  obtain ⟨n, hn, hi⟩ := hallowed
  obtain ⟨b, hb, hptr, hlen⟩ := h.owned _ hn
  refine ⟨⟨blocks, h.layout.congr rfl fun b' hb' j hj => ?_, h.owned, h.ptrs, h.headers⟩, trivial,
    fun hwrite => absurd trivial hwrite⟩
  refine Function.update_of_ne ?_ ..
  have hout := h.layout.outside_header hb' hb (i := i) (by omega)
  dsimp only at hptr
  omega

theorem step (h : HeapInv blocks c) {call : HeapCall} (hallowed : call.Allowed c)
    (hsafe : call.Safe c) :
    Good c call := by
  cases call with
  | malloc size => exact h.malloc hsafe
  | calloc nmemb size => exact h.calloc hsafe
  | realloc ptr size => exact h.realloc hallowed hsafe
  | free ptr => exact h.free hallowed
  | write ptr i byte => exact h.write hallowed

theorem init (mem : Bytes) : HeapInv [] { heap := { mem } } where
  layout := ⟨Nat.zero_le _, fun _ hb => absurd hb List.not_mem_nil, .nil, fun _ hb =>
    absurd hb List.not_mem_nil⟩
  owned _ hr := absurd hr List.not_mem_nil
  ptrs := List.nodup_nil
  headers _ hx := absurd hx List.not_mem_nil

end HeapInv

theorem heap_owned {mem : Bytes} {calls : List HeapCall}
    (hcalls : Meets (fun c call => some (c.step call)) (fun c call => call.Allowed c ∧ call.Safe c)
      { heap := { mem } } calls) : HeapOwned (calls.foldl Program.step { heap := { mem } }) := by
  obtain ⟨c, hrun, blocks, hinv⟩ := hcalls.foldlM (I := fun _ c => ∃ blocks, HeapInv blocks c)
    (N := calls.length) (k := 0)
    (fun k c call _ ⟨blocks, hc⟩ hcall => ⟨_, rfl, (hc.step hcall.1 hcall.2).inv⟩)
      ⟨[], HeapInv.init mem⟩
    (by omega)
  have hfold : calls.foldlM (fun c call => some (Program.step c call)) { heap := { mem } } =
      some (calls.foldl Program.step { heap := { mem } }) := List.foldlM_pure
  rw [Option.some.inj (hfold.symm.trans hrun)]
  exact ⟨hinv.ownedApart, fun call hallowed hsafe => (hinv.step hallowed hsafe).correct,
    fun call hallowed hsafe => (hinv.step hallowed hsafe).frame⟩

theorem heap_owned_grow : HeapOwned ([HeapCall.malloc 24, .write 16 3 7, .calloc 3 5,
    .realloc (some 16) 40,
    .free (some 64)].foldl Program.step { heap := { mem := fun _ => 0 } }) := by
  refine heap_owned ⟨⟨trivial, fun _ => by decide⟩, fun t ht => ?_⟩
  obtain rfl := Option.some.inj ht
  refine ⟨⟨⟨24, List.mem_cons_self, by decide⟩, trivial⟩, fun t ht => ?_⟩
  obtain rfl := Option.some.inj ht
  refine ⟨⟨trivial, fun _ => by decide⟩, fun t ht => ?_⟩
  obtain rfl := Option.some.inj ht
  refine ⟨⟨?_, fun _ _ => by decide⟩, fun t ht => ?_⟩
  · rintro _ ⟨⟩
    exact List.mem_cons_of_mem _ List.mem_cons_self
  obtain rfl := Option.some.inj ht
  refine ⟨⟨?_, trivial⟩, fun t ht => trivial⟩
  rintro _ ⟨⟩
  exact List.mem_cons_of_mem _ List.mem_cons_self

/-- The header and the rounding wrap: nothing is taken from the heap for almost 2^64 bytes, and the next
request gets the same address. In `calloc` the product wraps. -/
theorem huge_requests :
    (∃ c, c = [HeapCall.malloc 0xFFFFFFFFFFFFFFF0, .malloc 16].foldl Program.step
      { heap := { mem := fun _ => 0 } } ∧
      c.owned = [(16, 16), (16, 2 ^ 64 - 16)] ∧ ¬OwnedApart c) ∧
    ∃ c, c = [HeapCall.calloc 0x1000000000000001 16].foldl Program.step
      { heap := { mem := fun _ => 0 } } ∧
      c.owned = [(16, 2 ^ 64 + 16)] ∧ ¬OwnedApart c := by
  refine ⟨⟨_, rfl, rfl, fun h => ?_⟩, _, rfl, rfl, fun h => ?_⟩
  · exact absurd (h.inside (16, 2 ^ 64 - 16) (List.mem_cons_of_mem _ List.mem_cons_self)) (by decide)
  · exact absurd (h.inside (16, 2 ^ 64 + 16) List.mem_cons_self) (by decide)

end GcAos.Libc
