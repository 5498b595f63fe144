import GcAos.Lib.Bitmap
import GcAos.Lib.Bits
import GcAos.Lib.Exec

/-! The physical page allocator of `kernel/mm/pmm.c`. It never leaves its early mode, where a bitmap
tells the pages in use. Addresses and sizes have 64 bits. -/

namespace GcAos.Mm
open Lib

def pageSize : ℕ := 4096
def maxOrder : ℕ := 11
def memoryBase : ℕ := 0x40000000
def memorySize : ℕ := 1024 * 1024 * 1024
def pmmMaxMemorySize : ℕ := 4 * 1024 * 1024 * 1024
def earlyBitmapSize : ℕ := pmmMaxMemorySize / pageSize / 8

def orderToPages (order : ℕ) : ℕ := 1 <<< order

def orderToSize (order : ℕ) : ℕ := orderToPages order * pageSize

/-- `ALIGN` and `ALIGN_DOWN`. -/
def align (x a : ℕ) : ℕ := (x + a + 2 ^ 64 - 1) % 2 ^ 64 &&& (2 ^ 64 - 1 - (a + 2 ^ 64 - 1) % 2 ^ 64)

def alignDown (x a : ℕ) : ℕ := x &&& (2 ^ 64 - 1 - (a + 2 ^ 64 - 1) % 2 ^ 64)

/-- `configured_memory_base` and `configured_memory_size`. -/
structure MemoryRange where
  base : ℕ
  size : ℕ
  base_pos : 0 < base
  base_lt : base < 2 ^ 64
  size_pos : 0 < size
  size_le : size ≤ pmmMaxMemorySize

def MemoryRange.boot : MemoryRange where
  base := memoryBase
  size := memorySize
  base_pos := by decide
  base_lt := by decide
  size_pos := by decide
  size_le := by decide

def pmmSetMemoryRange (r : MemoryRange) (base size : UInt64) : MemoryRange :=
  if h : base.toNat = 0 ∨ size.toNat = 0 then r
  else
    { base := base.toNat
      size := min size.toNat pmmMaxMemorySize
      base_pos := by omega
      base_lt := base.toNat_lt
      size_pos := by
        have hmax : 0 < pmmMaxMemorySize := by decide
        omega
      size_le := min_le_right _ _ }

/-- `__kernel_start` and `__kernel_end`, as the linker scripts place them: the image ends at the end
of a page. -/
structure KernelBounds where
  start : ℕ
  stop : ℕ
  start_lt : start < stop
  stop_lt : stop < 2 ^ 64
  stop_aligned : pageSize ∣ stop

structure Pmm where
  earlyBitmap : Bytes
  memoryStart : ℕ
  memoryEnd : ℕ
  totalMemory : ℕ
  totalPages : ℕ
  freePagesCount : ℕ

/-- How the search of `pmm_alloc_pages` ends. -/
inductive Scan
  | found (start : ℕ)
  | exhausted
  deriving DecidableEq

namespace Pmm

/-- `PHYS_TO_PFN(addr - memory_start)`. -/
def pfn (p : Pmm) (addr : ℕ) : ℕ := (addr + 2 ^ 64 - p.memoryStart) % 2 ^ 64 / pageSize

def earlyMarkUsed (p : Pmm) (addr : ℕ) : Pmm :=
  if p.pfn addr < earlyBitmapSize * 8 then
    { p with earlyBitmap := p.earlyBitmap.setBit (p.pfn addr) }
  else p

def earlyMarkFree (p : Pmm) (addr : ℕ) : Pmm :=
  if p.pfn addr < earlyBitmapSize * 8 then
    { p with earlyBitmap := p.earlyBitmap.clearBit (p.pfn addr) }
  else p

def earlyIsFree (p : Pmm) (addr : ℕ) : Bool :=
  if earlyBitmapSize * 8 ≤ p.pfn addr then false else !p.earlyBitmap.bit (p.pfn addr)

/-- The loops that mark `count` pages from `start` on, one after another. -/
def markUsed (p : Pmm) (start count : ℕ) : Pmm :=
  (List.range count).foldl (fun p i => p.earlyMarkUsed ((start + i * pageSize) % 2 ^ 64)) p

def markFree (p : Pmm) (start count : ℕ) : Pmm :=
  (List.range count).foldl (fun p i => p.earlyMarkFree ((start + i * pageSize) % 2 ^ 64)) p

/-- The search of `pmm_alloc_pages`, at `addr` with `found` free pages from `start` on behind it; `none`
when it has not ended after `fuel` turns. -/
def scan (p : Pmm) (count : ℕ) : ℕ → ℕ → ℕ → ℕ → Option Scan
  | 0, _, _, _ => none
  | fuel + 1, addr, start, found =>
    if addr < p.memoryEnd then
      if p.earlyIsFree addr then
        let start := if found = 0 then addr else start
        if found + 1 = count then some (.found start)
        else scan p count fuel ((addr + pageSize) % 2 ^ 64) start (found + 1)
      else scan p count fuel ((addr + pageSize) % 2 ^ 64) start 0
    else some .exhausted

end Pmm

/-- The allocator with the configured range and nothing marked; the bitmap is in `.bss` and all
zeros. -/
def configured (r : MemoryRange) : Pmm where
  earlyBitmap _ := 0
  memoryStart := r.base
  memoryEnd := (r.base + r.size) % 2 ^ 64
  totalMemory := r.size
  totalPages := r.size / pageSize
  freePagesCount := 0

/-- Both ends of the loop over the kernel's pages are aligned. -/
def pmmInit (r : MemoryRange) (k : KernelBounds) : Pmm :=
  let first := alignDown k.start pageSize
  let p := (configured r).markUsed first ((align k.stop pageSize - first) / pageSize)
  { p with freePagesCount := p.earlyBitmap.clearCount (min p.totalPages (earlyBitmapSize * 8)) }

/-- The address returned, 0 when there is none, and the allocator after. The search takes at most
one turn for each page of the range and one more, unless its address wraps. -/
def pmmAllocPages (p : Pmm) (order : ℕ) : Option (ℕ × Pmm) :=
  if maxOrder < order then some (0, p)
  else
    let count := orderToPages order
    match p.scan count (p.totalPages + 2) p.memoryStart 0 0 with
    | none => none
    | some .exhausted => some (0, p)
    | some (.found start) =>
      let p := p.markUsed start count
      some (start, { p with freePagesCount := (p.freePagesCount + 2 ^ 64 - count) % 2 ^ 64 })

def pmmAllocPage (p : Pmm) : Option (ℕ × Pmm) := pmmAllocPages p 0

def pmmFreePages (p : Pmm) (addr order : ℕ) : Pmm :=
  if addr = 0 ∨ maxOrder < order then p
  else
    let count := orderToPages order
    let p := p.markFree addr count
    { p with freePagesCount := (p.freePagesCount + count) % 2 ^ 64 }

def pmmFreePage (p : Pmm) (addr : ℕ) : Pmm := pmmFreePages p addr 0

/-! ## Pages by number -/

variable {p : Pmm} {r : MemoryRange} {k : KernelBounds} {addr start count i n : ℕ}

namespace Pmm

def turns (p : Pmm) : ℕ := (p.memoryEnd - p.memoryStart + (pageSize - 1)) / pageSize

def page (p : Pmm) (i : ℕ) : ℕ := p.memoryStart + i * pageSize

structure Ranged (p : Pmm) : Prop where
  start_pos : 0 < p.memoryStart
  span : p.memoryStart + p.turns * pageSize < 2 ^ 64
  turns_le : p.turns ≤ earlyBitmapSize * 8
  fuel : p.turns ≤ p.totalPages + 1

theorem pfn_page (hp : p.Ranged) (hi : i < p.turns) : p.pfn (p.page i) = i := by
  have hspan := hp.span
  unfold pfn page
  unfold pageSize at *
  omega

theorem page_lt_memoryEnd : p.page i < p.memoryEnd ↔ i < p.turns := by
  unfold page turns pageSize
  omega

theorem page_mod (hp : p.Ranged) (hi : i ≤ p.turns) : p.page i % 2 ^ 64 = p.page i := by
  have hspan := hp.span
  have hle : i * pageSize ≤ p.turns * pageSize := Nat.mul_le_mul_right _ hi
  apply Nat.mod_eq_of_lt
  unfold page
  omega

theorem page_add (p : Pmm) (i n : ℕ) : p.page i + n * pageSize = p.page (i + n) := by
  unfold page
  rw [Nat.add_mul, Nat.add_assoc]

theorem earlyIsFree_page (hp : p.Ranged) (hi : i < p.turns) :
    p.earlyIsFree (p.page i) = !p.earlyBitmap.bit i := by
  have := hp.turns_le
  rw [earlyIsFree, pfn_page hp hi, if_neg (by omega)]

theorem exists_markUsed (p : Pmm) (start count : ℕ) :
    ∃ m, p.markUsed start count = { p with earlyBitmap := m } ∧ ∀ j < earlyBitmapSize * 8,
      (m.bit j = true ↔
        (∃ i < count, p.pfn ((start + i * pageSize) % 2 ^ 64) = j) ∨ p.earlyBitmap.bit j = true) := by
  unfold markUsed
  induction count with
  | zero => exact ⟨p.earlyBitmap, rfl, fun j _ => by simp⟩
  | succ n ih =>
    obtain ⟨m, heq, hbit⟩ := ih
    have hpfn : pfn { p with earlyBitmap := m } = p.pfn := rfl
    rw [List.range_succ, List.foldl_append, heq, List.foldl_cons, List.foldl_nil, earlyMarkUsed, hpfn]
    split
    next hlt =>
      refine ⟨_, rfl, fun j hj => ?_⟩
      rw [Bytes.bit_setBit, Bool.or_eq_true, decide_eq_true_eq, hbit j hj, ← or_assoc]
      refine or_congr_left ?_
      rw [Nat.exists_lt_succ_right, or_comm, eq_comm]
    next hge =>
      refine ⟨m, rfl, fun j hj => ?_⟩
      rw [hbit j hj]
      refine or_congr_left ?_
      rw [Nat.exists_lt_succ_right]
      exact (or_iff_left fun h => hge (by rw [h]; exact hj)).symm

theorem markUsed_page (hp : p.Ranged) (hn : i + n ≤ p.turns) :
    p.markUsed (p.page i) n = { p with earlyBitmap := p.earlyBitmap.setBits i n } := by
  have hle := hp.turns_le
  unfold markUsed
  induction n with
  | zero => rfl
  | succ n ih =>
    have hpfn : pfn { p with earlyBitmap := p.earlyBitmap.setBits i n } = p.pfn := rfl
    rw [List.range_succ, List.foldl_append, ih (by omega), List.foldl_cons, List.foldl_nil,
      earlyMarkUsed, hpfn,
      page_add, page_mod hp (by omega), pfn_page hp (by omega), if_pos (by omega), Bytes.setBits_succ]

theorem markFree_page (hp : p.Ranged) (hn : i + n ≤ p.turns) :
    p.markFree (p.page i) n = { p with earlyBitmap := p.earlyBitmap.clearBits i n } := by
  have hle := hp.turns_le
  unfold markFree
  induction n with
  | zero => rfl
  | succ n ih =>
    have hpfn : pfn { p with earlyBitmap := p.earlyBitmap.clearBits i n } = p.pfn := rfl
    rw [List.range_succ, List.foldl_append, ih (by omega), List.foldl_cons, List.foldl_nil,
      earlyMarkFree, hpfn,
      page_add, page_mod hp (by omega), pfn_page hp (by omega), if_pos (by omega), Bytes.clearBits_succ]

/-! ## The search -/

/-- The `n` pages from the page `i` on are all free. -/
def FreeRun (p : Pmm) (i n : ℕ) : Prop := ∀ j, i ≤ j → j < i + n → p.earlyBitmap.bit j = false

/-- No run of `n` free pages begins before the one at the page `i`. -/
structure FirstRun (p : Pmm) (i n : ℕ) : Prop where
  free : p.FreeRun i n
  first : ∀ j < i, ¬p.FreeRun j n

/-- The search before its turn at the page `i`: the `found` pages before it are free and begin at
`start`. -/
structure Scanning (p : Pmm) (count i start found : ℕ) : Prop where
  turn : i ≤ p.turns
  found_lt : found < count
  found_le : found ≤ i
  start_eq : 0 < found → start = p.page (i - found)
  run : p.FreeRun (i - found) found

theorem scan_spec (hp : p.Ranged) {found fuel : ℕ} (hs : p.Scanning count i start found)
    (hfuel : p.turns < fuel + i) :
    (∃ j, p.scan count fuel (p.page i) start found = some (.found (p.page j)) ∧
      j + count ≤ p.turns ∧ p.FreeRun j count ∧
      ∀ l, i - found ≤ l → l < j → ¬p.FreeRun l count) ∨
    p.scan count fuel (p.page i) start found = some .exhausted ∧
      ∀ j, i - found ≤ j → j + count ≤ p.turns → ¬p.FreeRun j count := by
  obtain ⟨hturn, hlt, hle, hstart, hrun⟩ := hs
  induction fuel generalizing i start found with
  | zero => omega
  | succ fuel ih =>
    unfold scan
    by_cases hi : i < p.turns
    · have hnext : (p.page i + pageSize) % 2 ^ 64 = p.page (i + 1) := by
        rw [← page_mod hp hi, ← page_add p i 1, Nat.one_mul]
      rw [if_pos (page_lt_memoryEnd.mpr hi), earlyIsFree_page hp hi, hnext]
      cases hbit : p.earlyBitmap.bit i with
      | true =>
        rw [if_neg (by simp)]
        -- no free run holds the page `i`
        have hmeet : ∀ l, i - found ≤ l → l ≤ i → ¬p.FreeRun l count := by
          intro l hl hli hfree
          have := hfree i hli (by omega)
          rw [hbit] at this
          cases this
        have hempty : p.FreeRun (i + 1 - 0) 0 := fun j hj hj' => absurd hj' (by omega)
        rcases ih (by omega) hi (Nat.zero_lt_of_lt hlt) (Nat.zero_le _)
          (fun h => absurd h (lt_irrefl 0))
          hempty with ⟨j, hscan, hj, hfree, hfirst⟩ | ⟨hend, hnone⟩
        · refine .inl ⟨j, hscan, hj, hfree, fun l hl hlj => ?_⟩
          by_cases hli : l ≤ i
          · exact hmeet l hl hli
          · exact hfirst l (by omega) hlj
        · refine .inr ⟨hend, fun j hj hjt => ?_⟩
          by_cases hji : j ≤ i
          · exact hmeet j hj hji
          · exact hnone j (by omega) hjt
      | false =>
        rw [if_pos (by rfl)]
        have hrun' : p.FreeRun (i - found) (found + 1) := by
          intro j hj hj'
          by_cases hji : j < i
          · exact hrun j hj (by omega)
          · rw [show j = i by omega]
            exact hbit
        have hstart' : (if found = 0 then p.page i else start) = p.page (i - found) := by
          split
          next h0 => rw [h0, Nat.sub_zero]
          next h0 => exact hstart (by omega)
        dsimp only
        rw [hstart']
        by_cases hcount : found + 1 = count
        · rw [if_pos hcount]
          exact .inl ⟨i - found, rfl, by omega, hcount ▸ hrun', fun l hl hlj => absurd hlj (by omega)⟩
        · rw [if_neg hcount]
          have hback : i + 1 - (found + 1) = i - found := by omega
          have := ih (by omega) hi (by omega) (by omega) (fun _ => congrArg p.page hback.symm)
            (by rw [hback]; exact hrun')
          rwa [hback] at this
    · rw [if_neg (page_lt_memoryEnd.not.mpr hi)]
      refine .inr ⟨rfl, fun j hj hjt => ?_⟩
      omega

end Pmm

/-! ## What the calls do -/

variable {order : ℕ}

theorem orderToPages_pos (order : ℕ) : 0 < orderToPages order := by
  rw [orderToPages, Nat.one_shiftLeft]
  exact Nat.two_pow_pos order

theorem align_pageSize {x : ℕ} (hlt : x < 2 ^ 64) (h : pageSize ∣ x) : align x pageSize = x := by
  obtain ⟨q, rfl⟩ := h
  have hsum : (pageSize * q + pageSize + 2 ^ 64 - 1) % 2 ^ 64 = pageSize * q + 4095 := by
    unfold pageSize at *
    omega
  have hmask := and_high_mask (w := 64) (k := 12) (x := pageSize * q + 4095) (by decide)
    (by unfold pageSize at *; omega)
  rw [align, hsum]
  refine hmask.trans ?_
  unfold pageSize
  omega

theorem alignDown_pageSize {x : ℕ} (hlt : x < 2 ^ 64) :
    alignDown x pageSize = x / pageSize * pageSize :=
  and_high_mask (w := 64) (k := 12) (by decide) hlt

def KernelBounds.bytes (k : KernelBounds) : Set ℕ := Set.Ico k.start k.stop

namespace Pmm

/-- Where the page `i` of the bitmap begins a page of the kernel image begins. -/
def Reserved (p : Pmm) (k : KernelBounds) (i : ℕ) : Prop :=
  ∃ a, pageSize ∣ a ∧ k.start < a + pageSize ∧ a < k.stop ∧ p.pfn a = i

theorem kernel_pages (k : KernelBounds) (f : ℕ → ℕ) (i : ℕ) :
    (∃ j < (align k.stop pageSize - alignDown k.start pageSize) / pageSize,
        f ((alignDown k.start pageSize + j * pageSize) % 2 ^ 64) = i) ↔
      ∃ a, pageSize ∣ a ∧ k.start < a + pageSize ∧ a < k.stop ∧ f a = i := by
  have hlt := k.start_lt
  have hstop := k.stop_lt
  rw [align_pageSize hstop k.stop_aligned, alignDown_pageSize (hlt.trans hstop)]
  obtain ⟨q, hq⟩ := k.stop_aligned
  have hpos : 0 < pageSize := by decide
  have hmul := Nat.div_mul_le_self k.start pageSize
  have hnext := Nat.lt_div_mul_add (a := k.start) hpos
  constructor
  · rintro ⟨j, hj, hf⟩
    have hend : (k.start / pageSize + j + 1) * pageSize ≤ k.stop := by
      rw [hq, Nat.mul_comm]
      apply Nat.mul_le_mul_left
      rw [hq, Nat.mul_comm pageSize q, ← Nat.sub_mul, Nat.mul_div_cancel _ hpos] at hj
      omega
    have hsum : k.start / pageSize * pageSize + j * pageSize = (k.start / pageSize + j) * pageSize :=
      (Nat.add_mul _ _ _).symm
    rw [Nat.add_mul] at hend
    rw [hsum, Nat.mod_eq_of_lt (by omega)] at hf
    refine ⟨_, Nat.dvd_mul_left _ _, ?_, by omega, hf⟩
    rw [Nat.add_mul]
    omega
  · rintro ⟨a, ⟨b, rfl⟩, hlo, hhi, hf⟩
    have hb : k.start / pageSize ≤ b := by
      by_contra hlt
      have := Nat.mul_le_mul_right pageSize (Nat.succ_le_of_lt (not_le.mp hlt))
      rw [Nat.succ_mul, Nat.mul_comm b] at this
      omega
    have hbq : b < q := Nat.lt_of_mul_lt_mul_left (hq ▸ hhi)
    refine ⟨b - k.start / pageSize, ?_, ?_⟩
    · rw [hq, Nat.mul_comm pageSize q, ← Nat.sub_mul, Nat.mul_div_cancel _ hpos]
      omega
    · rw [← Nat.add_mul, Nat.add_sub_cancel' hb, Nat.mul_comm, Nat.mod_eq_of_lt (by omega), hf]

theorem exists_pmmInit (r : MemoryRange) (k : KernelBounds) :
    ∃ m, pmmInit r k = { configured r with
        earlyBitmap := m
        freePagesCount := m.clearCount (min (r.size / pageSize) (earlyBitmapSize * 8)) } ∧
      ∀ i < earlyBitmapSize * 8, (m.bit i = true ↔ (configured r).Reserved k i) := by
  obtain ⟨m, heq, hbit⟩ := exists_markUsed (configured r) (alignDown k.start pageSize)
    ((align k.stop pageSize - alignDown k.start pageSize) / pageSize)
  refine ⟨m, ?_, fun i hi => ?_⟩
  · rw [pmmInit]
    dsimp only
    rw [heq]
    rfl
  · have hzero : (configured r).earlyBitmap.bit i = false := Nat.zero_testBit (i % 8)
    rw [hbit i hi, hzero, kernel_pages]
    exact or_iff_left Bool.false_ne_true

end Pmm

theorem pmmAllocPages_cases (hp : p.Ranged) (order : ℕ) :
    pmmAllocPages p order = some (0, p) ∧
      (order ≤ maxOrder → ∀ j, j + orderToPages order ≤ p.turns → ¬p.FreeRun j (orderToPages order)) ∨
    ∃ j, order ≤ maxOrder ∧ j + orderToPages order ≤ p.turns ∧ p.FirstRun j (orderToPages order) ∧
      pmmAllocPages p order = some (p.page j, { p with
        earlyBitmap := p.earlyBitmap.setBits j (orderToPages order)
        freePagesCount := (p.freePagesCount + 2 ^ 64 - orderToPages order) % 2 ^ 64 }) := by
  unfold pmmAllocPages
  by_cases horder : maxOrder < order
  · exact .inl ⟨if_pos horder, fun h => absurd horder (not_lt.mpr h)⟩
  rw [if_neg horder]
  dsimp only
  have hstart : p.page 0 = p.memoryStart := by simp [Pmm.page]
  have hscan : p.Scanning (orderToPages order) 0 0 0 :=
    ⟨Nat.zero_le _, orderToPages_pos order, le_rfl, fun h => absurd h (lt_irrefl 0), fun j _ hj =>
      absurd hj (by omega)⟩
  have hfuel : p.turns < p.totalPages + 2 + 0 := Nat.lt_succ_of_le hp.fuel
  rcases Pmm.scan_spec hp hscan hfuel with
    ⟨j, hfound, hj, hfree, hfirst⟩ | ⟨hend, hnone⟩
  · rw [hstart] at hfound
    refine .inr ⟨j, not_lt.mp horder, hj, ⟨hfree, fun i => hfirst i (Nat.zero_le i)⟩, ?_⟩
    rw [hfound]
    dsimp only
    rw [Pmm.markUsed_page hp hj]
  · rw [hstart] at hend
    refine .inl ⟨?_, fun _ j hj => hnone j (Nat.zero_le j) hj⟩
    rw [hend]

theorem pmmFreePages_page (hp : p.Ranged) (horder : order ≤ maxOrder)
    (hi : i + orderToPages order ≤ p.turns) :
    pmmFreePages p (p.page i) order = { p with
      earlyBitmap := p.earlyBitmap.clearBits i (orderToPages order)
      freePagesCount := (p.freePagesCount + orderToPages order) % 2 ^ 64 } := by
  have hpos := hp.start_pos
  have hne : ¬(p.page i = 0 ∨ maxOrder < order) := by
    unfold Pmm.page
    omega
  rw [pmmFreePages, if_neg hne]
  dsimp only
  rw [Pmm.markFree_page hp hi]

end GcAos.Mm
