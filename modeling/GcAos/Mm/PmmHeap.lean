import GcAos.Mm.Kmalloc
import GcAos.Mm.PmmRun

/-! The page allocator beside the kernel heap: `pmm_init` marks the pages of the kernel image only, and
`kmalloc_init` takes its region without asking. -/

namespace GcAos.Mm
open Lib

/-- The heap that `kmalloc_init` sets up after `pmm_init`. -/
def bootHeap (mem : Bytes) (p : Pmm) : Heap := (HeapSystem.init mem p.totalMemory).heap

def Heap.bytes (h : Heap) : Set ℕ := Set.Ico h.heapStart h.heapEnd

def MemoryRange.bytes (r : MemoryRange) : Set ℕ := Set.Ico r.base (r.base + r.size)

/-- Calls of `pmm_alloc_pages`, each with its order and the address it returns. -/
def Allocs : Pmm → List (ℕ × ℕ) → Pmm → Prop :=
  Exec fun p call q => pmmAllocPages p call.2 = some (call.1, q)

structure OwnedApart (r : MemoryRange) (k : KernelBounds) (h : Heap) : Prop where
  heap_inside : h.bytes ⊆ r.bytes
  alloc_apart : ∀ calls p, Allocs (pmmInit r k) calls p → ∀ a ∈ calls, a.1 ≠ 0 →
    Disjoint (allocBytes a) h.bytes ∧ Disjoint (allocBytes a) k.bytes

def MemoryRange.pageBytes (r : MemoryRange) (i : ℕ) : Set ℕ :=
  Set.Ico (r.base + i * pageSize) (r.base + (i + 1) * pageSize)

def Shielded (r : MemoryRange) (k : KernelBounds) (h : Heap) : Prop :=
  ∀ i, i * pageSize < r.size → ¬Disjoint (r.pageBytes i) (h.bytes ∪ k.bytes) →
    ∃ a ∈ r.pageBytes i, pageSize ∣ a ∧ k.start < a + pageSize ∧ a < k.stop

variable {mem : Bytes} {r : MemoryRange} {k : KernelBounds} {p q : Pmm} {calls : List (ℕ × ℕ)}
  {h : Heap}
  {i j : ℕ}

theorem minHeapSize_le (totalMemory : ℕ) : minHeapSize ≤ initHeapTotal totalMemory := by
  have hraised : ∀ total : ℕ, minHeapSize ≤ if total < minHeapSize then minHeapSize else total := by
    intro total
    split <;> omega
  exact hraised _

theorem initHeapTotal_pos (totalMemory : ℕ) : 0 < initHeapTotal totalMemory :=
  Nat.lt_of_lt_of_le (by decide) (minHeapSize_le totalMemory)

theorem bootHeap_bytes (mem : Bytes) (r : MemoryRange) (k : KernelBounds) :
    (bootHeap mem (pmmInit r k)).bytes = Set.Ico heapBase (heapBase + initHeapTotal r.size) := by
  obtain ⟨m, heq, -⟩ := Pmm.exists_pmmInit r k
  rw [heq]
  rfl

theorem configured_ranged_of_heap (hheap : heapBase ∈ r.bytes) :
    (configured r).Ranged ∧ (∀ i, i < (configured r).turns ↔ i * pageSize < r.size) := by
  obtain ⟨hlo, hhi⟩ := hheap
  have hpos := r.base_pos
  have hle := r.size_le
  have hturns : (configured r).turns = ((r.base + r.size) % 2 ^ 64 - r.base +
      (pageSize - 1)) / pageSize := rfl
  have hstart : (configured r).memoryStart = r.base := rfl
  have hpages : (configured r).totalPages = r.size / pageSize := rfl
  have hbits : earlyBitmapSize * 8 = 2 ^ 20 := rfl
  have hmax : pmmMaxMemorySize = 2 ^ 32 := rfl
  have hbase : heapBase = 0x42000000 := rfl
  refine ⟨⟨hpos, ?_, ?_, ?_⟩, fun i => ?_⟩
  all_goals
    unfold pageSize at *
    omega

theorem configured_reserved (hr : (configured r).Ranged) (hi : i < (configured r).turns) :
    (configured r).Reserved k i ↔ ∃ a ∈ r.pageBytes i,
      pageSize ∣ a ∧ k.start < a + pageSize ∧ a < k.stop := by
  have hspan := hr.span
  have hstart : (configured r).memoryStart = r.base := rfl
  have hmul := Nat.mul_le_mul_right pageSize (Nat.succ_le_of_lt hi)
  have hlt := r.base_lt
  have hstop := k.stop_lt
  rw [hstart] at hspan
  have hpfn : ∀ a < 2 ^ 64, (configured r).pfn a = i ↔ a ∈ r.pageBytes i := by
    intro a ha
    rw [Pmm.pfn, hstart, MemoryRange.pageBytes, Set.mem_Ico]
    unfold pageSize at *
    omega
  constructor
  · rintro ⟨a, hdvd, hlo, hhi, ha⟩
    exact ⟨a, (hpfn a (by omega)).mp ha, hdvd, hlo, hhi⟩
  · rintro ⟨a, ha, hdvd, hlo, hhi⟩
    exact ⟨a, hdvd, hlo, hhi, (hpfn a (by omega)).mpr ha⟩

/-! ## Allocations only add marks -/

/-- The allocator over `r`, with the pages of the kernel still marked. -/
structure Marked (r : MemoryRange) (k : KernelBounds) (p : Pmm) : Prop where
  ranged : p.Ranged
  start_eq : p.memoryStart = r.base
  turns_eq : p.turns = (configured r).turns
  bits : ∀ i < earlyBitmapSize * 8, (configured r).Reserved k i → p.earlyBitmap.bit i = true

theorem Marked.alloc (hp : Marked r k p) {order addr : ℕ}
    (hcall : pmmAllocPages p order = some (addr, q)) :
    Marked r k q ∧ (addr ≠ 0 → ∃ j, PmmSystem.Holds p (addr, order) j ∧
      ∀ i, j ≤ i → i < j + orderToPages order → ¬(configured r).Reserved k i) := by
  rcases pmmAllocPages_cases hp.ranged order with ⟨heq, -⟩ | ⟨j, horder, hend, hrun, heq⟩
  · rw [heq] at hcall
    obtain ⟨rfl, rfl⟩ := pair_inj hcall
    exact ⟨hp, fun h => absurd rfl h⟩
  · rw [heq] at hcall
    obtain ⟨rfl, rfl⟩ := pair_inj hcall
    refine ⟨⟨⟨hp.ranged.start_pos, hp.ranged.span, hp.ranged.turns_le, hp.ranged.fuel⟩, hp.start_eq,
      hp.turns_eq,
      fun i hi hres => Bytes.bit_setBits.mpr (.inr (hp.bits i hi hres))⟩, fun _ =>
        ⟨j, ⟨rfl, horder, hend⟩, ?_⟩⟩
    intro i hlo hhi hres
    have hturns := hp.ranged.turns_le
    have hset := hp.bits i (by omega) hres
    rw [hrun.free i hlo hhi] at hset
    cases hset

theorem pmmInit_marked (hr : (configured r).Ranged) : Marked r k (pmmInit r k) := by
  obtain ⟨m, heq, hbit⟩ := Pmm.exists_pmmInit r k
  rw [heq]
  exact ⟨⟨hr.start_pos, hr.span, hr.turns_le, hr.fuel⟩, rfl, rfl, fun i hi => (hbit i hi).mpr⟩

theorem PmmSystem.Holds.exists_page {a : ℕ × ℕ} {x : ℕ} (ha : PmmSystem.Holds p a j)
    (hp : p.memoryStart = r.base)
    (hx : x ∈ allocBytes a) : ∃ i, j ≤ i ∧ i < j + orderToPages a.2 ∧ x ∈ r.pageBytes i := by
  rw [ha.bytes_eq] at hx
  obtain ⟨hlo, hhi⟩ := hx
  unfold Pmm.page at hlo hhi
  refine ⟨(x - r.base) / pageSize, ?_, ?_, ?_⟩
  · rw [Nat.le_div_iff_mul_le (by decide)]
    omega
  · rw [Nat.div_lt_iff_lt_mul (by decide)]
    omega
  · have hle := Nat.div_mul_le_self (x - r.base) pageSize
    have hlt := Nat.lt_div_mul_add (a := x - r.base) (b := pageSize) (by decide)
    rw [MemoryRange.pageBytes, Set.mem_Ico, Nat.add_mul, Nat.one_mul]
    omega

theorem Shielded.alloc_apart (hs : Shielded r k h) (hheap : heapBase ∈ r.bytes) :
    ∀ calls p, Allocs (pmmInit r k) calls p → ∀ a ∈ calls, a.1 ≠ 0 →
      Disjoint (allocBytes a) h.bytes ∧ Disjoint (allocBytes a) k.bytes := by
  obtain ⟨hr, hturns⟩ := configured_ranged_of_heap hheap
  intro calls p hrun
  refine hrun.forall_mem (I := Marked r k) ?_ (pmmInit_marked hr)
  intro p call q hp hcall
  obtain ⟨hq, hrun⟩ := hp.alloc hcall
  refine ⟨hq, fun hne => ?_⟩
  obtain ⟨j, hj, hfree⟩ := hrun hne
  rw [← Set.disjoint_union_right, Set.disjoint_left]
  intro x hx hmem
  obtain ⟨i, hlo, hhi, hxi⟩ := hj.exists_page hp.start_eq hx
  have hi : i < (configured r).turns := by
    have := hj.end_le
    rw [hp.turns_eq] at this
    omega
  have hmeet : ¬Disjoint (r.pageBytes i) (h.bytes ∪ k.bytes) := Set.not_disjoint_iff.mpr ⟨x, hxi, hmem⟩
  exact hfree i hlo hhi ((configured_reserved hr hi).mpr (hs i ((hturns i).mp hi) hmeet))

/-! ## Every free page is returned some day -/

theorem exists_allocs (hp : p.Ranged) (hi : i < p.turns) (hclear : p.earlyBitmap.bit i = false) :
    ∃ calls q, Allocs p calls q ∧ (p.page i, 0) ∈ calls := by
  -- every call without this page takes another one of the free pages
  induction hn : p.earlyBitmap.clearCount p.turns using Nat.strong_induction_on generalizing p with
  | _ n ih =>
    have hone : orderToPages 0 = 1 := rfl
    have hfree : p.FreeRun i 1 := fun j hlo hhi => by rwa [show j = i by omega]
    rcases pmmAllocPages_cases hp 0 with ⟨-, hnone⟩ | ⟨j, -, hend, hrun, heq⟩
    · exact absurd hfree (hnone (Nat.zero_le _) i hi)
    · by_cases hji : j = i
      · subst hji
        exact ⟨[(p.page j, 0)], _, .cons heq (.nil _), List.mem_singleton_self _⟩
      · rw [hone] at hend hrun heq
        have hcount := Bytes.clearCount_setBits (m := p.earlyBitmap) hend hrun.free
        have hclear' : (p.earlyBitmap.setBits j 1).bit i = false := by
          rw [← Bool.not_eq_true, Bytes.bit_setBits, hclear]
          simp only [Bool.false_eq_true, or_false]
          omega
        have hlt : (p.earlyBitmap.setBits j 1).clearCount p.turns < n := by omega
        obtain ⟨calls, q, hrest, hmem⟩ := ih _ hlt
          (p := { p with
            earlyBitmap := p.earlyBitmap.setBits j 1
            freePagesCount := (p.freePagesCount + 2 ^ 64 - 1) % 2 ^ 64 })
          ⟨hp.start_pos, hp.span, hp.turns_le, hp.fuel⟩ hi hclear' rfl
        exact ⟨(p.page j, 0) :: calls, q, .cons heq hrest, List.mem_cons_of_mem _ hmem⟩

theorem OwnedApart.shielded (ho : OwnedApart r k h) (hheap : heapBase ∈ r.bytes) : Shielded r k h := by
  obtain ⟨hr, hturns⟩ := configured_ranged_of_heap hheap
  intro i hi hmeet
  have hit := (hturns i).mpr hi
  rw [← configured_reserved hr hit]
  by_contra hres
  obtain ⟨m, heq, hbit⟩ := Pmm.exists_pmmInit r k
  have hle := hr.turns_le
  have hclear : m.bit i = false := by
    rw [← Bool.not_eq_true, hbit i (by omega)]
    exact hres
  have hranged := (pmmInit_marked (k := k) hr).ranged
  rw [heq] at hranged
  obtain ⟨calls, q, hrun, hmem⟩ := exists_allocs hranged hit hclear
  rw [← heq] at hrun
  have hpos := r.base_pos
  have hapart := ho.alloc_apart calls q hrun _ hmem
      (by unfold Pmm.page; exact Nat.ne_of_gt (Nat.add_pos_left hpos _))
  apply hmeet
  rw [Set.disjoint_union_right]
  have hbytes : allocBytes ((configured r).page i, 0) = r.pageBytes i := by
    rw [allocBytes, MemoryRange.pageBytes, Nat.add_mul, ← Nat.add_assoc]
    rfl
  exact hbytes ▸ hapart

theorem heapBase_mem (mem : Bytes) (hin : (bootHeap mem (pmmInit r k)).bytes ⊆ r.bytes) :
    heapBase ∈ r.bytes := by
  apply hin
  rw [bootHeap_bytes]
  exact ⟨le_rfl, Nat.lt_add_of_pos_right (initHeapTotal_pos _)⟩

/-- The page allocator and the heap own disjoint memory just when the heap lies inside the
configured range and the kernel image shields every page of the range that has a byte of the heap or
of the image. -/
theorem owned_apart_iff (mem : Bytes) (r : MemoryRange) (k : KernelBounds) :
    OwnedApart r k (bootHeap mem (pmmInit r k)) ↔
      Set.Ico heapBase (heapBase + initHeapTotal r.size) ⊆ r.bytes ∧
        Shielded r k (bootHeap mem (pmmInit r k)) := by
  rw [← bootHeap_bytes mem r k]
  constructor
  · intro ho
    exact ⟨ho.heap_inside, ho.shielded (heapBase_mem mem ho.heap_inside)⟩
  · rintro ⟨hin, hs⟩
    exact ⟨hin, hs.alloc_apart (heapBase_mem mem hin)⟩

theorem not_shielded (hstop : k.stop ≤ heapBase) (mem : Bytes)
    (hin : Set.Ico heapBase (heapBase + initHeapTotal r.size) ⊆ r.bytes) :
    ¬Shielded r k (bootHeap mem (pmmInit r k)) := by
  intro hs
  have hmin := minHeapSize_le r.size
  have hsize : pageSize < minHeapSize := by decide
  have hpos : 0 < pageSize := by decide
  -- the page of the byte a page behind the start of the heap begins inside the heap
  have hheap : heapBase + pageSize ∈ Set.Ico heapBase (heapBase + initHeapTotal r.size) :=
    ⟨by omega, by omega⟩
  have hbase : heapBase ∈ r.bytes := hin ⟨le_rfl, by omega⟩
  have hbyte := hin hheap
  have hlo := hbase.1
  have hhi := hbyte.2
  have hle := Nat.div_mul_le_self (heapBase + pageSize - r.base) pageSize
  have hlt := Nat.lt_div_mul_add (a := heapBase + pageSize - r.base) hpos
  have hturn : (heapBase + pageSize - r.base) / pageSize * pageSize < r.size := by omega
  have hpage : heapBase + pageSize ∈ r.pageBytes ((heapBase + pageSize - r.base) / pageSize) := by
    rw [MemoryRange.pageBytes, Set.mem_Ico, Nat.add_mul, Nat.one_mul]
    omega
  have hmeet : ¬Disjoint (r.pageBytes ((heapBase + pageSize - r.base) / pageSize))
      ((bootHeap mem (pmmInit r k)).bytes ∪ k.bytes) := by
    rw [bootHeap_bytes]
    exact Set.not_disjoint_iff.mpr ⟨_, hpage, .inl hheap⟩
  obtain ⟨a, ha, -, -, hend⟩ := hs _ hturn hmeet
  rw [MemoryRange.pageBytes, Set.mem_Ico] at ha
  omega

theorem heap_page_handed_out : ¬OwnedApart .boot smallBounds
    (bootHeap (fun _ => 0) (pmmInit .boot smallBounds)) := by
  have hstop : smallBounds.stop ≤ heapBase := by decide
  have hends : MemoryRange.boot.base ≤ heapBase ∧
      heapBase + initHeapTotal MemoryRange.boot.size ≤ MemoryRange.boot.base +
        MemoryRange.boot.size := by decide
  intro ho
  have hs := ho.shielded (heapBase_mem (fun _ => 0) ho.heap_inside)
  exact not_shielded hstop (fun _ => 0) (Set.Ico_subset_Ico hends.1 hends.2) hs

end GcAos.Mm
