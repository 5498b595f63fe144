import GcAos.Lib.Bytes
import GcAos.Lib.Exec
import GcAos.Lib.Bits

/-! The user heap of `kernel/syscall/syscall.c`: `sys_brk` moves a break in the lower half of a window,
`sys_mmap` hands out regions of the upper half one after another. Errors are negative numbers. -/

namespace GcAos.Syscall
open Lib

def userHeapStart : UInt64 := 0x10000000
def userHeapSize : UInt64 := 0x04000000
def mapAnonymous : UInt64 := 0x20
def pageSize : UInt64 := 4096
def enosys : ℤ := 38
def enomem : ℤ := 12

structure UserHeap where
  mem : Bytes
  userBrkCurrent : UInt64
  userMmapCurrent : UInt64

def UserHeap.boot (mem : Bytes) : UserHeap where
  mem
  userBrkCurrent := userHeapStart
  userMmapCurrent := userHeapStart + userHeapSize / 2

def sysBrk (h : UserHeap) (brk : UInt64) : UInt64 × UserHeap :=
  if brk = 0 ∨ brk < userHeapStart then (h.userBrkCurrent, h)
  else if userHeapStart + userHeapSize / 2 < brk then (h.userBrkCurrent, h)
  else (brk, { h with userBrkCurrent := brk })

/-- `len` zeros from `p` on; addresses have 64 bits. -/
def zeroFill (mem : Bytes) (p len : UInt64) : Bytes := fun a =>
    if UInt64.ofNat a - p < len then 0 else mem a

/-- What `sys_mmap` takes: `MAP_ANONYMOUS` and no file, -1 in `int64_t`. -/
def Anonymous (flags fd : UInt64) : Prop := flags &&& mapAnonymous ≠ 0 ∧ fd = 0xFFFFFFFFFFFFFFFF

instance (flags fd : UInt64) : Decidable (Anonymous flags fd) :=
  inferInstanceAs (Decidable (flags &&& mapAnonymous ≠ 0 ∧ fd = 0xFFFFFFFFFFFFFFFF))

def alignPage (len : UInt64) : UInt64 := (len + pageSize - 1) &&& ~~~(pageSize - 1)

/-- The arguments `addr`, `prot` and `offset` are ignored. -/
def sysMmap (h : UserHeap) (_addr len _prot flags fd _offset : UInt64) : Except ℤ UInt64 × UserHeap :=
  if ¬Anonymous flags fd then (.error (-enosys), h)
  else
    let len := alignPage len
    if userHeapStart + userHeapSize < h.userMmapCurrent + len then (.error (-enomem), h)
    else
      let result := h.userMmapCurrent
      (.ok result, { h with
        userMmapCurrent := h.userMmapCurrent + len
        mem := zeroFill h.mem result len })

/-- Memory is not reclaimed. -/
def sysMunmap (h : UserHeap) (_addr _len : UInt64) : ℤ × UserHeap := (0, h)

inductive HeapCall
  | brk (brk : UInt64)
  | mmap (addr len prot flags fd offset : UInt64)
  | munmap (addr len : UInt64)

/-- The heap with the regions that successful calls of `sys_mmap` have returned: where each begins
and the length it was asked for with. -/
structure Mapped where
  heap : UserHeap
  regions : List (UInt64 × UInt64)

namespace Mapped

def boot (mem : Bytes) : Mapped := ⟨.boot mem, []⟩

def call (m : Mapped) : HeapCall → Mapped
  | .brk brk => { m with heap := (sysBrk m.heap brk).2 }
  | .mmap addr len prot flags fd offset =>
    match sysMmap m.heap addr len prot flags fd offset with
    | (.ok result, heap) => ⟨heap, (result, len) :: m.regions⟩
    | (.error _, heap) => { m with heap := heap }
  | .munmap addr len => { m with heap := (sysMunmap m.heap addr len).2 }

end Mapped

def Fits (h : UserHeap) : HeapCall → Prop
  | .mmap _ len _ flags fd _ =>
    Anonymous flags fd → h.userMmapCurrent.toNat + (len.toNat + 4095) / 4096 * 4096 < 2 ^ 64
  | _ => True

/-! What is promised of the window: it begins at `windowLo`, is cut in two at `windowMid` and ends
before `windowHi`. -/

def windowLo : ℕ := 0x10000000
def windowMid : ℕ := 0x12000000
def windowHi : ℕ := 0x14000000

def Apart (r s : UInt64 × UInt64) : Prop :=
  r.1.toNat + r.2.toNat ≤ s.1.toNat ∨ s.1.toNat + s.2.toNat ≤ r.1.toNat

structure Mapped.Layout (m : Mapped) : Prop where
  brk : windowLo ≤ m.heap.userBrkCurrent.toNat ∧ m.heap.userBrkCurrent.toNat ≤ windowMid
  mmap : windowMid ≤ m.heap.userMmapCurrent.toNat ∧ m.heap.userMmapCurrent.toNat ≤ windowHi
  inside : ∀ r ∈ m.regions, windowMid ≤ r.1.toNat ∧ r.1.toNat + r.2.toNat ≤ windowHi
  apart : m.regions.Pairwise Apart

/-- Regions end where the next mapping begins, at the latest. -/
structure Mapped.Inv (m : Mapped) : Prop extends m.Layout where
  below : ∀ r ∈ m.regions, r.1.toNat + r.2.toNat ≤ m.heap.userMmapCurrent.toNat

variable {h : UserHeap} {m m' : Mapped} {c : HeapCall} {addr len prot flags fd offset : UInt64}

theorem alignPage_toNat (len : UInt64) :
    (alignPage len).toNat = (len.toNat + 4095) % 2 ^ 64 / 4096 * 4096 := by
  have hsum : (len + pageSize - 1).toNat = (len.toNat + 4095) % 2 ^ 64 := by
    rw [show len + pageSize - 1 = len + 4095 by rw [UInt64.sub_eq_add_neg, UInt64.add_assoc]; rfl,
      UInt64.toNat_add]
    rfl
  rw [alignPage, UInt64.toNat_and, hsum]
  exact and_high_mask (w := 64) (k := 12) (by decide) (Nat.mod_lt _ (by decide))

theorem alignPage_of_fits (hfits : h.userMmapCurrent.toNat +
    (len.toNat + 4095) / 4096 * 4096 < 2 ^ 64) :
    (alignPage len).toNat = (len.toNat + 4095) / 4096 * 4096 ∧
      (h.userMmapCurrent + alignPage len).toNat =
        h.userMmapCurrent.toNat + (len.toNat + 4095) / 4096 * 4096 := by
  have hlen : (alignPage len).toNat = (len.toNat + 4095) / 4096 * 4096 := by
    rw [alignPage_toNat, Nat.mod_eq_of_lt (by omega)]
  refine ⟨hlen, ?_⟩
  rw [UInt64.toNat_add, hlen]
  exact Nat.mod_eq_of_lt hfits

theorem sysMmap_cases (h : UserHeap) (addr len prot flags fd offset : UInt64) :
    (∃ e, sysMmap h addr len prot flags fd offset = (.error e, h) ∧
      (Anonymous flags fd → windowHi < (h.userMmapCurrent + alignPage len).toNat)) ∨
    ∃ h', sysMmap h addr len prot flags fd offset = (.ok h.userMmapCurrent, h') ∧
      Anonymous flags fd ∧ h'.userBrkCurrent = h.userBrkCurrent ∧
      h'.userMmapCurrent = h.userMmapCurrent + alignPage len ∧
      (h.userMmapCurrent + alignPage len).toNat ≤ windowHi := by
  unfold sysMmap
  by_cases hanon : Anonymous flags fd
  · rw [if_neg (not_not.mpr hanon)]
    by_cases hbound : userHeapStart + userHeapSize < h.userMmapCurrent + alignPage len
    · exact .inl ⟨_, if_pos hbound, fun _ => UInt64.lt_iff_toNat_lt.mp hbound⟩
    · refine .inr ⟨_, if_neg hbound, hanon, rfl, rfl, ?_⟩
      exact UInt64.le_iff_toNat_le.mp (UInt64.not_lt.mp hbound)
  · exact .inl ⟨_, if_pos hanon, fun h => absurd h hanon⟩

theorem sysBrk_cases (h : UserHeap) (brk : UInt64) :
    (sysBrk h brk).2 = h ∨
      (sysBrk h brk).2 = { h with userBrkCurrent := brk } ∧ windowLo ≤ brk.toNat ∧
        brk.toNat ≤ windowMid := by
  unfold sysBrk
  split
  · exact .inl rfl
  next hlo =>
  split
  · exact .inl rfl
  next hhi =>
  rw [not_or, UInt64.not_lt] at hlo
  exact .inr ⟨rfl, UInt64.le_iff_toNat_le.mp hlo.2, UInt64.le_iff_toNat_le.mp (UInt64.not_lt.mp hhi)⟩

namespace Mapped

theorem boot_inv (mem : Bytes) : (boot mem).Inv where
  brk := ⟨le_rfl, show windowLo ≤ windowMid by decide⟩
  mmap := ⟨le_rfl, show windowMid ≤ windowHi by decide⟩
  inside _ hr := absurd hr List.not_mem_nil
  apart := .nil
  below _ hr := absurd hr List.not_mem_nil

theorem Inv.push (hm : m.Inv) {h' : UserHeap}
    (hfits : m.heap.userMmapCurrent.toNat + (len.toNat + 4095) / 4096 * 4096 < 2 ^ 64)
    (hbrk : h'.userBrkCurrent = m.heap.userBrkCurrent)
    (hcur : h'.userMmapCurrent = m.heap.userMmapCurrent + alignPage len)
    (hbound : (m.heap.userMmapCurrent + alignPage len).toNat ≤ windowHi) :
    Inv ⟨h', (m.heap.userMmapCurrent, len) :: m.regions⟩ := by
  obtain ⟨-, hsum⟩ := alignPage_of_fits hfits
  have hlen : len.toNat ≤ (len.toNat + 4095) / 4096 * 4096 := by omega
  have hmid := hm.mmap.1
  rw [hsum] at hbound
  refine ⟨⟨by rw [hbrk]; exact hm.brk, ?_, ?_, ?_⟩, ?_⟩
  · rw [hcur, hsum]
    exact ⟨by omega, hbound⟩
  · intro r hr
    rcases List.mem_cons.mp hr with rfl | hr
    · exact ⟨hmid, by dsimp only; omega⟩
    · exact hm.inside r hr
  · exact List.pairwise_cons.mpr ⟨fun r hr => .inr (hm.below r hr), hm.apart⟩
  · intro r hr
    rw [hcur, hsum]
    rcases List.mem_cons.mp hr with rfl | hr
    · dsimp only
      omega
    · have := hm.below r hr
      omega

theorem Inv.call (hm : m.Inv) (hfits : Fits m.heap c) :
    (m.call c).Inv ∧ m.heap.userMmapCurrent.toNat ≤ (m.call c).heap.userMmapCurrent.toNat := by
  cases c with
  | brk brk =>
    rcases sysBrk_cases m.heap brk with heq | ⟨heq, hbrk⟩
    · rw [Mapped.call, heq]
      exact ⟨hm, le_rfl⟩
    · rw [Mapped.call, heq]
      exact ⟨⟨⟨hbrk, hm.mmap, hm.inside, hm.apart⟩, hm.below⟩, le_rfl⟩
  | mmap addr len prot flags fd offset =>
    rcases sysMmap_cases m.heap addr len prot flags fd offset with
      ⟨e, heq, -⟩ | ⟨h', heq, hanon, hbrk, hcur, hbound⟩
    · rw [Mapped.call, heq]
      exact ⟨hm, le_rfl⟩
    · rw [Mapped.call, heq]
      refine ⟨hm.push (hfits hanon) hbrk hcur hbound, ?_⟩
      dsimp only
      rw [hcur, (alignPage_of_fits (hfits hanon)).2]
      exact Nat.le_add_right _ _
  | munmap addr len => exact ⟨hm, le_rfl⟩

theorem Inv.not_layout (hm : m.Inv) (hfits : ¬Fits m.heap c) :
    ¬((m.call c).Layout ∧ m.heap.userMmapCurrent.toNat ≤ (m.call c).heap.userMmapCurrent.toNat) := by
  cases c with
  | brk brk => exact absurd trivial hfits
  | munmap addr len => exact absurd trivial hfits
  | mmap addr len prot flags fd offset =>
    rw [Fits, Classical.not_imp] at hfits
    obtain ⟨hanon, hover⟩ := hfits
    have hmmap := hm.mmap
    have hlen64 := len.toNat_lt
    have hwrap : len.toNat + 4095 < 2 ^ 64 ∧
          (m.heap.userMmapCurrent + alignPage len).toNat < m.heap.userMmapCurrent.toNat ∨
        2 ^ 64 ≤ len.toNat + 4095 ∧
          (m.heap.userMmapCurrent + alignPage len).toNat = m.heap.userMmapCurrent.toNat := by
      rw [UInt64.toNat_add, alignPage_toNat]
      unfold windowMid windowHi at hmmap
      omega
    intro ⟨hlayout, hle⟩
    rcases sysMmap_cases m.heap addr len prot flags fd offset with
      ⟨e, -, hbound⟩ | ⟨h', heq, -, -, hcur, -⟩
    · have := hbound hanon
      omega
    · rw [Mapped.call, heq] at hlayout hle
      rcases hwrap with ⟨-, hlt⟩ | ⟨hlen, -⟩
      · dsimp only at hle
        rw [hcur] at hle
        omega
      · have hinside := (hlayout.inside _ List.mem_cons_self).2
        dsimp only at hinside
        unfold windowHi at hinside
        omega

end Mapped

def FitRun (m : Mapped) (calls : List HeapCall) (m' : Mapped) : Prop :=
  Exec (fun m c m' => Fits m.heap c ∧ m.call c = m') m calls m'

theorem FitRun.inv {calls : List HeapCall} (hrun : FitRun m calls m') (hm : m.Inv) :
    m'.Inv ∧ m.heap.userMmapCurrent.toNat ≤ m'.heap.userMmapCurrent.toNat := by
  refine Exec.invariant (I := fun t : Mapped =>
    t.Inv ∧ m.heap.userMmapCurrent.toNat ≤ t.heap.userMmapCurrent.toNat)
    ?_ hrun ⟨hm, le_rfl⟩
  rintro t c t' ⟨ht, hle⟩ ⟨hfits, rfl⟩
  obtain ⟨hinv, hle'⟩ := ht.call hfits
  exact ⟨hinv, hle.trans hle'⟩

/-- As long as the mappings asked for fit, the window is laid out as it should be and the cursor of
`sys_mmap` does not go down; the first call that does not fit breaks the one or the other. -/
theorem user_heap_layout {mem : Bytes} {calls calls' : List HeapCall}
    (hrun : FitRun (.boot mem) calls m)
    (hrun' : FitRun m calls' m') :
    m'.Layout ∧ m.heap.userMmapCurrent.toNat ≤ m'.heap.userMmapCurrent.toNat ∧
      ∀ c, (m'.call c).Layout ∧ m'.heap.userMmapCurrent.toNat ≤ (m'.call c).heap.userMmapCurrent.toNat ↔
        Fits m'.heap c := by
  obtain ⟨hm, -⟩ := hrun.inv (Mapped.boot_inv mem)
  obtain ⟨hm', hle⟩ := hrun'.inv hm
  refine ⟨hm'.toLayout, hle, fun c => ⟨fun h => ?_, fun hfits => ?_⟩⟩
  · by_contra hfits
    exact hm'.not_layout hfits h
  · obtain ⟨hinv, hle⟩ := hm'.call hfits
    exact ⟨hinv.toLayout, hle⟩

def anonymous (len : UInt64) : HeapCall := .mmap 0 len 3 0x22 0xFFFFFFFFFFFFFFFF 0

theorem user_heap_layout_two_calls :
    ∃ m, FitRun (.boot fun _ => 0) [.brk 0x10000800, anonymous 5000] m ∧
      m.regions = [(0x12000000, 5000)] ∧ m.heap.userMmapCurrent = 0x12002000 ∧ m.Layout := by
  have hrun : FitRun (.boot fun _ => 0) [.brk 0x10000800, anonymous 5000]
      ((Mapped.boot fun _ => 0).call (.brk 0x10000800) |>.call (anonymous 5000)) := by
    refine .cons ⟨trivial, rfl⟩ (.cons ⟨fun _ => ?_, rfl⟩ (.nil _))
    decide
  exact ⟨_, hrun, rfl, rfl, (user_heap_layout hrun (.nil _)).1⟩

theorem mmap_length_wraps :
    ¬∀ (mem : Bytes) (calls calls' : List HeapCall) (m m' : Mapped),
      Exec (fun m c m' => m.call c = m') (.boot mem) calls m →
        Exec (fun m c m' => m.call c = m') m calls' m' →
      m'.Layout ∧ m.heap.userMmapCurrent.toNat ≤ m'.heap.userMmapCurrent.toNat := by
  intro hall
  obtain ⟨hlayout, -⟩ := hall (fun _ => 0) [] [anonymous 0xFFFFFFFFFFFFFFFF] _ _ (.nil _)
      (.cons rfl (.nil _))
  have hinside := (hlayout.inside (0x12000000, 0xFFFFFFFFFFFFFFFF) (List.mem_cons_self ..)).2
  exact absurd hinside (by decide)

end GcAos.Syscall
