import GcAos.Mm.PmmRun

/-! Allocation in early mode is first fit: the lowest run of free pages, and freeing it is the
inverse. -/

namespace GcAos.Mm
open Lib

namespace Pmm

/-- The `2 ^ order` pages from `addr` on are free and lie inside the range. -/
structure RunAt (p : Pmm) (order addr : ℕ) : Prop where
  aligned : pageSize ∣ addr
  start_le : p.memoryStart ≤ addr
  end_le : addr + orderToSize order ≤ p.memoryEnd
  free : ∀ i < orderToPages order, p.earlyIsFree (addr + i * pageSize) = true

/-- What an allocation of `2 ^ order` pages at `addr` has done. -/
structure Allocated (p : Pmm) (order addr : ℕ) (q : Pmm) : Prop where
  run : p.RunAt order addr
  lowest : ∀ a, p.RunAt order a → addr ≤ a
  others : q = { p with earlyBitmap := q.earlyBitmap, freePagesCount := q.freePagesCount }
  bits : ∀ i, q.earlyBitmap.bit i = true ↔
    p.page i ∈ Set.Ico addr (addr + orderToSize order) ∨ p.earlyBitmap.bit i = true
  count : (q.freePagesCount + orderToPages order) % 2 ^ 64 = p.freePagesCount
  restored : pmmFreePages q addr order = p

end Pmm

/-- The allocator over the range `r`, with any pages marked and any count. -/
def earlyPmm (r : MemoryRange) (bitmap : Bytes) (count : ℕ) : Pmm :=
  { configured r with earlyBitmap := bitmap, freePagesCount := count }

variable {r : MemoryRange} {p q : Pmm} {bitmap : Bytes} {count order addr i j : ℕ}

structure Pmm.Covered (p : Pmm) : Prop extends p.Ranged where
  start_aligned : pageSize ∣ p.memoryStart
  covers : p.turns = 0 ∧ p.memoryEnd ≤ p.memoryStart ∨
    p.memoryStart + p.turns * pageSize = p.memoryEnd

theorem earlyPmm_covered (hbase : pageSize ∣ r.base) (hsize : pageSize ∣ r.size) :
    (earlyPmm r bitmap count).Covered := by
  obtain ⟨hranged, -, -⟩ := PmmSystem.configured_ranged hbase hsize
  refine ⟨⟨hranged.start_pos, hranged.span, hranged.turns_le, hranged.fuel⟩, hbase, ?_⟩
  obtain ⟨q, hq⟩ := hbase
  obtain ⟨n, hn⟩ := hsize
  have hturns : (earlyPmm r bitmap count).turns = ((r.base + r.size) % 2 ^ 64 - r.base +
      (pageSize - 1)) / pageSize := rfl
  have hstart : (earlyPmm r bitmap count).memoryStart = r.base := rfl
  have hend : (earlyPmm r bitmap count).memoryEnd = (r.base + r.size) % 2 ^ 64 := rfl
  have hlt := r.base_lt
  have hle := r.size_le
  rw [hturns, hstart, hend]
  unfold pmmMaxMemorySize pageSize at *
  omega

namespace Pmm

theorem Covered.runAt_iff (hp : p.Covered) :
    p.RunAt order addr ↔
      ∃ j, addr = p.page j ∧ j + orderToPages order ≤ p.turns ∧ p.FreeRun j (orderToPages order) := by
  have hpos := orderToPages_pos order
  have hmul : 0 < orderToSize order := Nat.mul_pos hpos (by decide)
  have hisFree (j i : ℕ) (hi : j + i < p.turns) :
      p.earlyIsFree (p.page j + i * pageSize) = true ↔ p.earlyBitmap.bit (j + i) = false := by
    rw [page_add, earlyIsFree_page hp.toRanged hi, Bool.not_eq_true']
  constructor
  · rintro ⟨haligned, hstart, hend, hfree⟩
    obtain ⟨j, hj⟩ : ∃ j, addr = p.page j := by
      obtain ⟨a, rfl⟩ := haligned
      obtain ⟨b, hb⟩ := hp.start_aligned
      refine ⟨a - b, ?_⟩
      rw [hb] at hstart
      have hba : b ≤ a := Nat.le_of_mul_le_mul_left hstart (by decide)
      rw [page, hb, Nat.mul_comm (a - b), ← Nat.mul_add, Nat.add_sub_cancel' hba]
    have hin : j + orderToPages order ≤ p.turns := by
      rcases hp.covers with ⟨-, hempty⟩ | hcovers
      · omega
      · have hle : p.page (j + orderToPages order) ≤ p.page p.turns := by
          rw [← page_add, ← hj]
          exact hend.trans hcovers.ge
        exact page_le_page.mp hle
    refine ⟨j, hj, hin, fun l hlo hhi => ?_⟩
    have hl := hfree (l - j) (by omega)
    rw [hj, hisFree j (l - j) (by omega), Nat.add_sub_cancel' hlo] at hl
    exact hl
  · rintro ⟨j, rfl, hin, hrun⟩
    refine ⟨?_, Nat.le_add_right _ _, ?_, fun i hi => ?_⟩
    · exact hp.start_aligned.add (Nat.dvd_mul_left _ _)
    · rcases hp.covers with ⟨h0, -⟩ | hcovers
      · omega
      · rw [orderToSize, page_add, ← hcovers]
        exact page_mono hin
    · rw [hisFree j i (by omega)]
      exact hrun (j + i) (Nat.le_add_right _ _) (by omega)

theorem Covered.allocated (hp : p.Covered) (hcount : p.freePagesCount < 2 ^ 64)
    (horder : order ≤ maxOrder) (hend : j + orderToPages order ≤ p.turns)
    (hrun : p.FirstRun j (orderToPages order)) :
    Allocated p order (p.page j) { p with
      earlyBitmap := p.earlyBitmap.setBits j (orderToPages order)
      freePagesCount := (p.freePagesCount + 2 ^ 64 - orderToPages order) % 2 ^ 64 } := by
  obtain ⟨q, hq⟩ : ∃ q : Pmm, q = { p with
      earlyBitmap := p.earlyBitmap.setBits j (orderToPages order)
      freePagesCount := (p.freePagesCount + 2 ^ 64 - orderToPages order) % 2 ^ 64 } := ⟨_, rfl⟩
  rw [← hq]
  have hpages : orderToPages order ≤ 2 ^ 11 := by
    rw [orderToPages, Nat.one_shiftLeft]
    exact Nat.pow_le_pow_right (by decide) horder
  have hback : (q.freePagesCount + orderToPages order) % 2 ^ 64 = p.freePagesCount := by
    rw [hq]
    dsimp only
    omega
  have hranged : q.Ranged := by
    rw [hq]
    exact ⟨hp.start_pos, hp.span, hp.turns_le, hp.fuel⟩
  have hpage : q.page j = p.page j := by
    rw [hq]
    rfl
  have hend' : j + orderToPages order ≤ q.turns := by
    rw [hq]
    exact hend
  refine ⟨hp.runAt_iff.mpr ⟨j, rfl, hend, hrun.free⟩, fun a ha => ?_, ?_, fun i => ?_, hback, ?_⟩
  · obtain ⟨l, rfl, -, hl⟩ := hp.runAt_iff.mp ha
    exact page_mono (not_lt.mp fun hlt => hrun.first l hlt hl)
  · rw [hq]
  · rw [hq, Bytes.bit_setBits, Set.mem_Ico, orderToSize, page_add, page_lt_page, page_le_page]
  · rw [← hpage, pmmFreePages_page hranged horder hend', hback, hq]
    dsimp only
    rw [Bytes.clearBits_setBits hrun.free]

end Pmm

/-- With an aligned range, for every bitmap: the lowest free run is taken, nothing else is changed,
and freeing the run restores the state; no run is the only reason to fail. -/
theorem early_first_fit (hbase : pageSize ∣ r.base) (hsize : pageSize ∣ r.size) (bitmap : Bytes)
    (hcount : count < 2 ^ 64) (horder : order ≤ maxOrder) :
    ∃ addr q, pmmAllocPages (earlyPmm r bitmap count) order = some (addr, q) ∧
      (addr = 0 → q = earlyPmm r bitmap count ∧
        ∀ a, ¬(earlyPmm r bitmap count).RunAt order a) ∧
      (addr ≠ 0 → (earlyPmm r bitmap count).Allocated order addr q) := by
  have hp : (earlyPmm r bitmap count).Covered := earlyPmm_covered hbase hsize
  rcases pmmAllocPages_cases hp.toRanged order with ⟨hcall, hnone⟩ | ⟨j, -, hend, hrun, hcall⟩
  · refine ⟨_, _, hcall, fun _ => ⟨rfl, fun a ha => ?_⟩, fun hne => absurd rfl hne⟩
    obtain ⟨j, -, hin, hfree⟩ := hp.runAt_iff.mp ha
    exact hnone horder j hin hfree
  · refine ⟨_, _, hcall, fun h0 => ?_, fun _ => hp.allocated hcount horder hend hrun⟩
    have hpos := hp.start_pos
    unfold Pmm.page at h0
    omega

theorem early_first_fit_gap : ∃ addr q,
    pmmAllocPages (earlyPmm .boot ((Bytes.setBit (fun _ => 0) 0).setBit 2) 100) 1 = some (addr, q) ∧
      addr = memoryBase + 3 * pageSize ∧
      (earlyPmm .boot ((Bytes.setBit (fun _ => 0) 0).setBit 2) 100).Allocated 1 addr q := by
  have hcount : 100 < 2 ^ 64 := by decide
  have horder : 1 ≤ maxOrder := by decide
  obtain ⟨addr, q, hcall, -, hsome⟩ := early_first_fit (r := .boot) (by decide) (by decide)
    ((Bytes.setBit (fun _ => 0) 0).setBit 2) hcount horder
  have haddr : (pmmAllocPages (earlyPmm .boot ((Bytes.setBit (fun _ => 0) 0).setBit 2) 100) 1).map
      Prod.fst = some (memoryBase + 3 * pageSize) := by decide +kernel
  rw [hcall] at haddr
  have heq : addr = memoryBase + 3 * pageSize := Option.some.inj haddr
  exact ⟨addr, q, hcall, heq, hsome (by rw [heq]; decide)⟩

end GcAos.Mm
