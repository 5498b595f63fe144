import GcAos.Mm.Pmm
import Mathlib.Order.CompletePartialOrder

/-! The page allocator and the clients that hold its pages: bits, count and live ranges agree. -/

namespace GcAos.Mm
open Lib

structure PmmSystem where
  pmm : Pmm
  live : List (ℕ × ℕ)

inductive PmmAction
  | alloc (order : ℕ)
  | free (addr order : ℕ)

def allocBytes (a : ℕ × ℕ) : Set ℕ := Set.Ico a.1 (a.1 + orderToSize a.2)

namespace PmmSystem

def init (r : MemoryRange) (k : KernelBounds) : PmmSystem := ⟨pmmInit r k, []⟩

/-- Clients free what they hold, with the order they asked for. -/
inductive Step : PmmSystem → PmmAction → PmmSystem → Prop
  | alloc {s : PmmSystem} {order addr : ℕ} {p : Pmm}
      (hcall : pmmAllocPages s.pmm order = some (addr, p)) :
      Step s (.alloc order) ⟨p, if addr = 0 then s.live else (addr, order) :: s.live⟩
  | free {s : PmmSystem} {addr order : ℕ} (hlive : (addr, order) ∈ s.live) :
      Step s (.free addr order) ⟨pmmFreePages s.pmm addr order, s.live.erase (addr, order)⟩

/-- The page `i` of the range holds a byte of the kernel image. -/
def KernelPage (s : PmmSystem) (k : KernelBounds) (i : ℕ) : Prop := ∃ x ∈ k.bytes, s.pmm.pfn x = i

structure Accounting (s : PmmSystem) (k : KernelBounds) : Prop where
  count : s.pmm.freePagesCount = s.pmm.earlyBitmap.clearCount s.pmm.totalPages
  apart : s.live.Pairwise fun a b => Disjoint (allocBytes a) (allocBytes b)
  inside : ∀ a ∈ s.live, allocBytes a ⊆ Set.Ico s.pmm.memoryStart s.pmm.memoryEnd
  kernel : ∀ a ∈ s.live, Disjoint (allocBytes a) k.bytes
  bits : ∀ i < earlyBitmapSize * 8,
    (s.pmm.earlyBitmap.bit i = true ↔ s.KernelPage k i ∨ ∃ a ∈ s.live, s.pmm.page i ∈ allocBytes a)

structure Holds (p : Pmm) (a : ℕ × ℕ) (j : ℕ) : Prop where
  addr_eq : a.1 = p.page j
  order_le : a.2 ≤ maxOrder
  end_le : j + orderToPages a.2 ≤ p.turns

structure Inv (s : PmmSystem) (k : KernelBounds) : Prop where
  ranged : s.pmm.Ranged
  aligned : pageSize ∣ s.pmm.memoryStart
  turns_le : s.pmm.turns ≤ s.pmm.totalPages
  pages_le : s.pmm.totalPages ≤ earlyBitmapSize * 8
  exact : s.pmm.memoryStart + s.pmm.turns * pageSize ≤ max s.pmm.memoryStart s.pmm.memoryEnd
  count : s.pmm.freePagesCount = s.pmm.earlyBitmap.clearCount s.pmm.totalPages
  held : ∀ a ∈ s.live, ∃ j, Holds s.pmm a j
  apart : s.live.Pairwise fun a b => Disjoint (allocBytes a) (allocBytes b)
  kernel : ∀ a ∈ s.live, ∀ i, s.pmm.page i ∈ allocBytes a → ¬s.KernelPage k i
  bits : ∀ i < earlyBitmapSize * 8,
    (s.pmm.earlyBitmap.bit i = true ↔ s.KernelPage k i ∨ ∃ a ∈ s.live, s.pmm.page i ∈ allocBytes a)

end PmmSystem

open PmmSystem

variable {s t : PmmSystem} {p : Pmm} {r : MemoryRange} {k : KernelBounds} {a b : ℕ × ℕ}
  {i j n x order : ℕ}

/-! ## Bytes and pages -/

theorem mem_allocBytes : x ∈ allocBytes a ↔ a.1 ≤ x ∧ x < a.1 + orderToSize a.2 := Iff.rfl

theorem page_mono (h : i ≤ j) : p.page i ≤ p.page j :=
  Nat.add_le_add_left (Nat.mul_le_mul_right _ h) _

theorem page_lt_page : p.page i < p.page j ↔ i < j := by
  unfold Pmm.page
  rw [Nat.add_lt_add_iff_left]
  exact Nat.mul_lt_mul_right (by decide)

theorem page_le_page : p.page i ≤ p.page j ↔ i ≤ j := by
  rw [← not_lt, page_lt_page, not_lt]

theorem PmmSystem.Holds.page_mem (h : Holds p a j) :
    p.page i ∈ allocBytes a ↔ j ≤ i ∧ i < j + orderToPages a.2 := by
  rw [mem_allocBytes, h.addr_eq, orderToSize, Pmm.page_add, page_lt_page, page_le_page]

theorem PmmSystem.Holds.bytes_eq (h : Holds p a j) :
    allocBytes a = Set.Ico (p.page j) (p.page (j + orderToPages a.2)) := by
  rw [allocBytes, h.addr_eq, orderToSize, Pmm.page_add]

theorem PmmSystem.Holds.disjoint (ha : Holds p a i) (hb : Holds p b j)
    (h : i + orderToPages a.2 ≤ j ∨ j + orderToPages b.2 ≤ i) :
      Disjoint (allocBytes a) (allocBytes b) := by
  rw [ha.bytes_eq, hb.bytes_eq, Set.Ico_disjoint_Ico]
  rcases h with h | h
  · exact (min_le_left _ _).trans ((page_mono h).trans (le_max_right _ _))
  · exact (min_le_right _ _).trans ((page_mono h).trans (le_max_left _ _))

theorem page_pfn_le (hp : p.Ranged) (hlo : p.memoryStart ≤ x) (hhi : x < p.page p.turns) :
    p.page (p.pfn x) ≤ x ∧ x < p.page (p.pfn x + 1) := by
  have hspan := hp.span
  unfold Pmm.page at *
  have hpfn : p.pfn x = (x - p.memoryStart) / pageSize := by
    have hback : x + 2 ^ 64 - p.memoryStart = x - p.memoryStart + 2 ^ 64 := by omega
    rw [Pmm.pfn, hback, Nat.add_mod_right, Nat.mod_eq_of_lt (by omega)]
  rw [hpfn]
  have hle := Nat.div_mul_le_self (x - p.memoryStart) pageSize
  have hlt := Nat.lt_div_mul_add (a := x - p.memoryStart) (b := pageSize) (by decide)
  rw [Nat.add_mul, Nat.one_mul]
  omega

theorem pfn_page_start (hal : pageSize ∣ p.memoryStart) (x : ℕ) :
    p.pfn (x / pageSize * pageSize) = p.pfn x := by
  obtain ⟨q, hq⟩ := hal
  rw [Pmm.pfn, Pmm.pfn, hq]
  unfold pageSize
  omega

theorem reserved_iff (hal : pageSize ∣ p.memoryStart) : p.Reserved k i ↔ ∃ x ∈ k.bytes,
    p.pfn x = i := by
  have hpos : 0 < pageSize := by decide
  constructor
  · rintro ⟨_, ⟨b, rfl⟩, hlo, hhi, rfl⟩
    -- the first byte of the image in this page
    refine ⟨max (pageSize * b) k.start, ⟨le_max_right _ _, max_lt hhi k.start_lt⟩, ?_⟩
    rw [← pfn_page_start hal, ← pfn_page_start hal (pageSize * b)]
    congr 2
    rw [Nat.mul_div_cancel_left _ hpos]
    apply Nat.div_eq_of_lt_le
    · rw [Nat.mul_comm]
      exact le_max_left _ _
    · rw [Nat.add_mul, Nat.mul_comm b]
      exact max_lt (by omega) (by omega)
  · rintro ⟨x, ⟨hlo, hhi⟩, rfl⟩
    have hle := Nat.div_mul_le_self x pageSize
    have hlt := Nat.lt_div_mul_add (a := x) hpos
    exact ⟨x / pageSize * pageSize, Nat.dvd_mul_left _ _, by omega, by omega, pfn_page_start hal x⟩

namespace PmmSystem

/-! ## The invariant -/

theorem Inv.free_apart (hs : s.Inv k) (hrun : s.pmm.FreeRun j n) (hend : j + n ≤ s.pmm.turns)
    (hlo : j ≤ i)
    (hhi : i < j + n) : ¬s.KernelPage k i ∧ ∀ a ∈ s.live, s.pmm.page i ∉ allocBytes a := by
  have hi : i < earlyBitmapSize * 8 := by
    have := hs.ranged.turns_le
    omega
  have hclear := hrun i hlo hhi
  rw [← Bool.not_eq_true, hs.bits i hi, not_or] at hclear
  exact ⟨hclear.1, fun a ha hmem => hclear.2 ⟨a, ha, hmem⟩⟩

theorem Inv.alloc (hs : s.Inv k) (horder : order ≤ maxOrder)
    (hend : j + orderToPages order ≤ s.pmm.turns)
    (hrun : s.pmm.FreeRun j (orderToPages order)) :
    Inv ⟨{ s.pmm with
        earlyBitmap := s.pmm.earlyBitmap.setBits j (orderToPages order)
        freePagesCount := (s.pmm.freePagesCount + 2 ^ 64 - orderToPages order) % 2 ^ 64 },
      (s.pmm.page j, order) :: s.live⟩ k := by
  have hnew : Holds s.pmm (s.pmm.page j, order) j := ⟨rfl, horder, hend⟩
  have hfree := fun i => hs.free_apart hrun hend (i := i)
  refine ⟨⟨hs.ranged.start_pos, hs.ranged.span, hs.ranged.turns_le, hs.ranged.fuel⟩, hs.aligned,
    hs.turns_le,
    hs.pages_le, hs.exact, ?_, ?_, ?_, ?_, ?_⟩
  · have hcount := Bytes.clearCount_setBits (hend.trans hs.turns_le) hrun
    have hbound := Bytes.clearCount_le (m := s.pmm.earlyBitmap) (n := s.pmm.totalPages)
    have hpages := hs.pages_le
    dsimp only
    rw [hs.count]
    unfold earlyBitmapSize pmmMaxMemorySize pageSize at hpages
    omega
  · intro a ha
    rcases List.mem_cons.mp ha with rfl | ha
    · exact ⟨j, hnew.addr_eq, hnew.order_le, hnew.end_le⟩
    · obtain ⟨i, hi⟩ := hs.held a ha
      exact ⟨i, hi.addr_eq, hi.order_le, hi.end_le⟩
  · refine List.pairwise_cons.mpr ⟨fun b hb => ?_, hs.apart⟩
    obtain ⟨i, hi⟩ := hs.held b hb
    apply hnew.disjoint hi
    by_contra hmeet
    rw [not_or, not_le, not_le] at hmeet
    -- the first page of the two runs' overlap
    have hpos := orderToPages_pos order
    have hpos' := orderToPages_pos b.2
    dsimp only at hmeet
    exact (hfree (max i j) (le_max_right _ _) (by omega)).2 b hb (hi.page_mem.mpr (by omega))
  · intro a ha i hmem
    rcases List.mem_cons.mp ha with rfl | ha
    · obtain ⟨hlo, hhi⟩ := hnew.page_mem.mp hmem
      exact (hfree i hlo hhi).1
    · exact hs.kernel a ha i hmem
  · intro i hi
    have hpage := hnew.page_mem (i := i)
    dsimp only at hpage ⊢
    rw [Bytes.bit_setBits, hs.bits i hi, ← hpage, or_left_comm]
    exact or_congr_right (List.exists_mem_cons_iff (fun a => s.pmm.page i ∈ allocBytes a) _ _).symm

theorem Inv.free (hs : s.Inv k) (ha : a ∈ s.live) :
    Inv ⟨pmmFreePages s.pmm a.1 a.2, s.live.erase a⟩ k := by
  obtain ⟨j, hj⟩ := hs.held a ha
  have hperm := List.perm_cons_erase ha
  have hpair := (hperm.pairwise_iff fun h => Disjoint.symm h).mp hs.apart
  obtain ⟨hapart, hrest⟩ := List.pairwise_cons.mp hpair
  rw [hj.addr_eq, pmmFreePages_page hs.ranged hj.order_le hj.end_le]
  refine ⟨⟨hs.ranged.start_pos, hs.ranged.span, hs.ranged.turns_le, hs.ranged.fuel⟩, hs.aligned,
    hs.turns_le,
    hs.pages_le, hs.exact, ?_, ?_, hrest, ?_, ?_⟩
  · have hset : ∀ i, j ≤ i → i < j + orderToPages a.2 → s.pmm.earlyBitmap.bit i = true := by
      intro i hlo hhi
      have hturns := hs.ranged.turns_le
      have hend := hj.end_le
      exact (hs.bits i (by omega)).mpr (.inr ⟨a, ha, hj.page_mem.mpr ⟨hlo, hhi⟩⟩)
    have hcount := Bytes.clearCount_clearBits (hj.end_le.trans hs.turns_le) hset
    have hbound := Bytes.clearCount_le (m := s.pmm.earlyBitmap.clearBits j (orderToPages a.2))
        (n := s.pmm.totalPages)
    have hpages := hs.pages_le
    dsimp only
    rw [hs.count]
    unfold earlyBitmapSize pmmMaxMemorySize pageSize at hpages
    omega
  · intro b hb
    obtain ⟨i, hi⟩ := hs.held b (List.mem_of_mem_erase hb)
    exact ⟨i, hi.addr_eq, hi.order_le, hi.end_le⟩
  · exact fun b hb => hs.kernel b (List.mem_of_mem_erase hb)
  · intro i hi
    dsimp only
    rw [Bytes.bit_clearBits, ← hj.page_mem (i := i), hs.bits i hi]
    constructor
    · rintro ⟨hout, hkernel | ⟨b, hb, hmem⟩⟩
      · exact .inl hkernel
      · have hne : b ≠ a := fun h => hout (h ▸ hmem)
        exact .inr ⟨b, (List.mem_erase_of_ne hne).mpr hb, hmem⟩
    · rintro (hkernel | ⟨b, hb, hmem⟩)
      · exact ⟨fun h => hs.kernel a ha i h hkernel, .inl hkernel⟩
      · exact ⟨fun h => Set.disjoint_left.mp (hapart b hb) h hmem,
          .inr ⟨b, List.mem_of_mem_erase hb, hmem⟩⟩

theorem Inv.step {c : PmmAction} (hs : s.Inv k) (h : Step s c t) : t.Inv k := by
  cases h with
  | @alloc order addr p hcall =>
    rcases pmmAllocPages_cases hs.ranged order with ⟨heq, -⟩ | ⟨j, horder, hend, hrun, heq⟩
    · rw [heq] at hcall
      obtain ⟨rfl, rfl⟩ := pair_inj hcall
      rw [if_pos rfl]
      exact hs
    · rw [heq] at hcall
      obtain ⟨rfl, rfl⟩ := pair_inj hcall
      have hne : s.pmm.page j ≠ 0 := by
        have := hs.ranged.start_pos
        unfold Pmm.page
        omega
      rw [if_neg hne]
      exact hs.alloc horder hend hrun.free
  | free hlive => exact hs.free hlive

theorem configured_ranged (hbase : pageSize ∣ r.base) (hsize : pageSize ∣ r.size) :
    (configured r).Ranged ∧ (configured r).turns ≤ r.size / pageSize ∧
      r.base + (configured r).turns * pageSize ≤ max r.base ((r.base + r.size) % 2 ^ 64) := by
  obtain ⟨q, hq⟩ := hbase
  obtain ⟨n, hn⟩ := hsize
  have hpos := r.base_pos
  have hlt := r.base_lt
  have hle := r.size_le
  have hturns : (configured r).turns = ((r.base + r.size) % 2 ^ 64 - r.base +
      (pageSize - 1)) / pageSize := rfl
  have hstart : (configured r).memoryStart = r.base := rfl
  have hpages : (configured r).totalPages = r.size / pageSize := rfl
  refine ⟨⟨hpos, ?_, ?_, ?_⟩, ?_, ?_⟩
  all_goals
    unfold earlyBitmapSize pmmMaxMemorySize pageSize at *
    omega

theorem init_inv (hbase : pageSize ∣ r.base) (hsize : pageSize ∣ r.size) : (init r k).Inv k := by
  obtain ⟨m, heq, hbit⟩ := Pmm.exists_pmmInit r k
  obtain ⟨hranged, hturns, hexact⟩ := configured_ranged hbase hsize
  have hle := r.size_le
  have hpages : r.size / pageSize ≤ earlyBitmapSize * 8 := by
    unfold earlyBitmapSize pmmMaxMemorySize pageSize at *
    omega
  rw [init, heq]
  refine ⟨⟨hranged.start_pos, hranged.span, hranged.turns_le, hranged.fuel⟩, hbase, hturns, hpages,
    hexact, ?_,
    fun a ha => absurd ha List.not_mem_nil, .nil, fun a ha => absurd ha List.not_mem_nil,
      fun i hi => ?_⟩
  · dsimp only
    rw [min_eq_left hpages]
    rfl
  · rw [hbit i hi, reserved_iff hbase]
    exact (or_iff_left fun ⟨a, ha, _⟩ => absurd ha List.not_mem_nil).symm

theorem Inv.accounting (hs : s.Inv k) : s.Accounting k := by
  refine ⟨hs.count, hs.apart, fun a ha => ?_, fun a ha => ?_, hs.bits⟩
  · obtain ⟨j, hj⟩ := hs.held a ha
    have hpos := orderToPages_pos a.2
    have hlo := page_mono (p := s.pmm) (Nat.zero_le j)
    have hhi := page_mono (p := s.pmm) hj.end_le
    have hexact := hs.exact
    have hturns : 0 < s.pmm.turns := by
      have := hj.end_le
      omega
    have hmul : pageSize ≤ s.pmm.turns * pageSize := Nat.le_mul_of_pos_left _ hturns
    have hsize : 0 < pageSize := by decide
    rw [hj.bytes_eq]
    unfold Pmm.page at *
    exact Set.Ico_subset_Ico (by omega) (by omega)
  · obtain ⟨j, hj⟩ := hs.held a ha
    rw [Set.disjoint_left]
    intro x hx hkernel
    have hx' := hx
    rw [hj.bytes_eq] at hx'
    have hstart := page_mono (p := s.pmm) (Nat.zero_le j)
    have hend := page_mono (p := s.pmm) hj.end_le
    have hzero : s.pmm.page 0 = s.pmm.memoryStart := by simp [Pmm.page]
    obtain ⟨hlo, hhi⟩ := page_pfn_le hs.ranged (x := x) (by have := hx'.1; omega)
        (by have := hx'.2; omega)
    have hj₁ : j < s.pmm.pfn x + 1 := page_lt_page.mp (hx'.1.trans_lt hhi)
    have hj₂ : s.pmm.pfn x < j + orderToPages a.2 := page_lt_page.mp (hlo.trans_lt hx'.2)
    exact hs.kernel a ha _ (hj.page_mem.mpr ⟨by omega, hj₂⟩) ⟨x, hkernel, rfl⟩

end PmmSystem

/-- Page allocator accounting: in every state that allocations and frees lead to, and every call
returns. -/
theorem page_accounting (hbase : pageSize ∣ r.base) (hsize : pageSize ∣ r.size) {as : List PmmAction}
    (h : Exec Step (init r k) as t) :
    t.Accounting k ∧ ∀ order, (pmmAllocPages t.pmm order).isSome := by
  have hinv : t.Inv k := h.invariant (I := fun s => s.Inv k) (fun _ _ _ hs hstep => hs.step hstep)
      (init_inv hbase hsize)
  refine ⟨hinv.accounting, fun order => ?_⟩
  rcases pmmAllocPages_cases hinv.ranged order with ⟨heq, -⟩ | ⟨j, -, -, -, heq⟩
  · rw [heq, Option.isSome_some]
  · rw [heq, Option.isSome_some]

def smallBounds : KernelBounds where
  start := memoryBase
  stop := memoryBase + 32 * pageSize
  start_lt := by decide
  stop_lt := by decide
  stop_aligned := by decide

theorem page_accounting_two_pages : ∃ t, Exec Step (init .boot smallBounds) [.alloc 1] t ∧
    t.live = [(memoryBase + 32 * pageSize, 1)] ∧ t.Accounting smallBounds := by
  have hcall : (pmmAllocPages (pmmInit .boot smallBounds) 1).map Prod.fst = some
      (memoryBase + 32 * pageSize) := by
    decide +kernel
  obtain ⟨⟨addr, p⟩, hcall, rfl⟩ := Option.map_eq_some_iff.mp hcall
  have hrun : Exec Step (init .boot smallBounds) [.alloc 1] ⟨p, _⟩ := .cons (.alloc hcall) (.nil _)
  exact ⟨_, hrun, rfl, (page_accounting (by decide) (by decide) hrun).1⟩

end GcAos.Mm
