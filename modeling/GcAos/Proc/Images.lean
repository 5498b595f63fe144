import GcAos.Mm.PmmHeap
import GcAos.Proc.ProcessRun

/-! Where programs are loaded: from `PROGRAM_LOAD_BASE` on, one behind the other, while the kernel
heap ends where the memory size says. -/

namespace GcAos.Proc
open Lib Kernel

namespace Kernel

/-- The bytes of the image of the process in the slot `i`. -/
def image (k : Kernel) (i : Slot) : Set ℕ :=
  Set.Ico (k.procTable i).loadBase ((k.procTable i).loadBase + (k.procTable i).loadSize)

structure ImagesApart (k : Kernel) (heap : Set ℕ) : Prop where
  heap : ∀ i, k.state i ≠ .free → Disjoint (k.image i) heap
  other : ∀ i j, k.state i ≠ .free → k.state j ≠ .free → i ≠ j → Disjoint (k.image i) (k.image j)

structure SameImages (k k' : Kernel) : Prop where
  image : ∀ i, k'.image i = k.image i
  next : k'.nextLoadAddr = k.nextLoadAddr

namespace SameImages

variable {k k' k'' : Kernel} {f : Process → Process} {slot : Slot}

theorem refl (k : Kernel) : k.SameImages k := ⟨fun _ => rfl, rfl⟩

theorem trans (h : k.SameImages k') (h' : k'.SameImages k'') : k.SameImages k'' where
  image i := (h'.image i).trans (h.image i)
  next := h'.next.trans h.next

theorem modify (k : Kernel) (slot : Slot) (f : Process → Process)
    (hbase : (f (k.procTable slot)).loadBase = (k.procTable slot).loadBase)
    (hsize : (f (k.procTable slot)).loadSize = (k.procTable slot).loadSize) :
      k.SameImages (k.modify slot f) where
  image i := by
    unfold Kernel.image
    by_cases hi : i = slot
    · rw [hi, modify_procTable_self, hbase, hsize]
    · rw [modify_procTable_of_ne hi]
  next := rfl

theorem setState (k : Kernel) (slot : Slot) (s : ProcState) : k.SameImages (k.setState slot s) :=
  modify k slot _ rfl rfl

theorem saveContext (k : Kernel) (saved : Context) (old : Option Slot) :
    k.SameImages (saveContext k saved old) := by
  cases old with
  | none => exact ⟨fun _ => rfl, rfl⟩
  | some i => exact modify k i (fun p => { p with context := saved }) rfl rfl

theorem release (k : Kernel) (V : Finset Slot) : k.SameImages (k.release V) where
  image i := by
    unfold Kernel.image Kernel.release
    dsimp only
    split <;> rfl
  next := rfl

theorem stopCurrent (k : Kernel) : k.SameImages (stopCurrent k) := by
  unfold Proc.stopCurrent
  split
  · exact .refl k
  · split
    · exact .setState ..
    · exact .refl k

theorem switchTo (k : Kernel) (slot : Slot) : k.SameImages (switchTo k slot) :=
  have h := (stopCurrent k).trans (.setState _ slot .running)
  ⟨h.image, h.next⟩

theorem processSchedule (k : Kernel) (saved : Context) : k.SameImages (processSchedule k saved) := by
  unfold Proc.processSchedule
  split
  · split
    · exact .refl k
    · split
      · exact .refl k
      · next old _ _ =>
        have h := SameImages.saveContext { k with currentPid := none, currentProcess := none } saved
            (some old)
        exact ⟨h.image, h.next⟩
  · split
    · exact .refl k
    · split
      · exact .setState ..
      · exact (switchTo ..).trans (.saveContext ..)

theorem processYield (k : Kernel) (saved : Context) : k.SameImages (processYield k saved) := by
  unfold Proc.processYield
  split
  · exact .processSchedule ..
  · exact (setState ..).trans (.processSchedule ..)

theorem processScheduleFromIrq (k : Kernel) : k.SameImages (processScheduleFromIrq k) := by
  unfold Proc.processScheduleFromIrq
  split
  · exact .refl k
  · split
    · exact .refl k
    · split
      · exact .refl k
      · split
        · exact .refl k
        · exact .switchTo ..

theorem irqHandler (k : Kernel) (saved : Context) : k.SameImages (irqHandler k saved) := by
  unfold Proc.irqHandler
  split
  · dsimp only
    split
    · exact .processScheduleFromIrq k
    · exact (processScheduleFromIrq k).trans (.saveContext ..)
  · exact (saveContext ..).trans (.processScheduleFromIrq _)

theorem leave (k : Kernel) (slot : Slot) (status : ℤ) : k.SameImages (leave k slot status) :=
  have h := modify k slot (fun p => { p with exitStatus := status, state := .free }) rfl rfl
  ⟨h.image, h.next⟩

theorem processExit (hn : k.Numbered) (status : ℤ) (saved : Context)
    (h : processExit k status saved = some k') : k.SameImages k' := by
  cases hc : k.currentPid with
  | none =>
    rw [Proc.processExit, hc] at h
    obtain rfl := Option.some.inj h
    exact .refl k
  | some slot =>
    obtain ⟨V, k'', -, hexit, hk''⟩ := processExit_eq hn hc status saved
    obtain rfl := Option.some.inj (h.symm.trans hexit)
    rcases hk'' with rfl | rfl
    · exact (release k V).trans (.leave ..)
    · exact ((release k V).trans (.leave ..)).trans (.saveContext ..)

theorem processKill {pid res : ℤ} (hn : k.Numbered) (h : processKill k pid = some (res, k')) :
    k.SameImages k' := by
  rcases processKill_cases hn pid with hkill | ⟨slot, V, -, -, -, -, -, hkill⟩
  · obtain ⟨-, rfl⟩ := pair_inj (h.symm.trans hkill)
    exact .refl _
  · obtain ⟨-, rfl⟩ := pair_inj (h.symm.trans hkill)
    exact (release k V).trans (modify _ slot _ rfl rfl)

theorem call {c : Call} (hn : k.Numbered) (hc : ∀ r, c ≠ .create r) (h : k.Step c k') :
    k.SameImages k' := by
  cases c with
  | create r => exact absurd rfl (hc r)
  | yield saved =>
    obtain rfl := Option.some.inj h
    exact .processYield k saved
  | schedule saved =>
    obtain rfl := Option.some.inj h
    exact .processSchedule k saved
  | scheduleFromIrq saved =>
    obtain rfl := Option.some.inj h
    exact .irqHandler k saved
  | exit status saved => exact .processExit hn status saved h
  | kill pid =>
    obtain ⟨⟨res, k''⟩, hkill, rfl⟩ := Option.map_eq_some_iff.mp h
    exact .processKill hn hkill

end SameImages

end Kernel

/-! ## A program that is loaded -/

namespace Request

def info (r : Request) (k : Kernel) : LoadInfo := (r.loadAt (r.loadAddr k)).2

/-- The call succeeds, and `elf_load_at` has put the program where it was told to. -/
structure Succeeds (r : Request) (k : Kernel) : Prop where
  result : (processCreate k r).1 ≠ -1
  base_eq : (r.info k).loadBase = r.loadAddr k

structure NoWrap (r : Request) (k : Kernel) : Prop where
  addr : k.nextLoadAddr + r.aslrOffset + 0xFFFF < 2 ^ 64
  next : r.loadAddr k + (r.info k).loadSize + 0x10000 + 0xFFFF < 2 ^ 64

def BehindHeap (r : Request) (k : Kernel) (heapEnd : ℕ) : Prop :=
  (r.info k).loadSize ≠ 0 → heapEnd ≤ r.loadAddr k

end Request

/-- A run whose calls of `process_create` succeed, without a sum that wraps and each behind the heap. -/
def ClearRun (heapEnd : ℕ) : List Call → Kernel → Prop :=
  Exec (fun k c k' => k.Step c k' ∧ ∀ r, c = .create r →
    r.Succeeds k ∧ r.NoWrap k ∧ r.BehindHeap k heapEnd)
    (processInit .static)

variable {k k' : Kernel} {r : Request} {c : Call} {calls : List Call} {slot i j : Slot} {h : Mm.Heap}

theorem align64K_of_lt {x : ℕ} (hx : x + 0xFFFF < 2 ^ 64) :
    align64K x = (x + 0xFFFF) / 0x10000 * 0x10000 := by
  rw [align64K, Nat.mod_eq_of_lt hx]

theorem processCreate_success (hr : (processCreate k r).1 ≠ -1) :
    ∃ slot, findFreeSlotUnlocked k = some slot ∧
      (∀ i, i ≠ slot → (processCreate k r).2.procTable i = k.procTable i) ∧
      (processCreate k r).2.image slot =
        Set.Ico (r.info k).loadBase ((r.info k).loadBase + (r.info k).loadSize) ∧
      (processCreate k r).2.state slot = .ready ∧
      (processCreate k r).2.nextLoadAddr = align64K (r.loadAddr k + (r.info k).loadSize + 0x10000) := by
  rcases processCreate_cases k r with ⟨-, heq⟩ | ⟨slot, hslot, ⟨-, heq⟩ | ⟨-, heq⟩⟩
  · rw [heq] at hr
    exact absurd rfl hr
  · rw [heq] at hr
    exact absurd rfl hr
  · by_cases hstack : r.stack = 0
    · rw [heq, setUp_of_no_stack _ hstack] at hr
      exact absurd rfl hr
    · refine ⟨slot, hslot, ?_⟩
      rw [heq, setUp_of_stack _ hstack]
      have hself : (enter (reserve k slot) r slot (r.info k)
          { r.process (reserve k slot) slot (r.info k) with
            context := r.context (r.info k).entry }).procTable slot =
          { r.process (reserve k slot) slot (r.info k) with context := r.context (r.info k).entry } :=
        Function.update_self ..
      refine ⟨fun i hi => ?_, ?_, ?_, rfl⟩
      · exact (Function.update_of_ne hi ..).trans (reserve_procTable_of_ne hi)
      · exact congrArg (fun p : Process => Set.Ico p.loadBase (p.loadBase + p.loadSize)) hself
      · exact congrArg Process.state hself

/-- The invariant of the runs: images end before the next load address. -/
structure Kernel.Loaded (k : Kernel) (h : Mm.Heap) : Prop extends k.ImagesApart h.bytes where
  next_ge : programLoadBase ≤ k.nextLoadAddr
  below : ∀ i, k.state i ≠ .free → ∀ x ∈ k.image i, x < k.nextLoadAddr

theorem Kernel.Loaded.call (hk : k.Loaded h) (hn : k.Numbered) (hs : k.SingleRunning)
    (hc : ∀ r, c ≠ .create r) (hstep : k.Step c k') : k'.Loaded h := by
  have hsame := SameImages.call hn hc hstep
  obtain ⟨k'', hstep', -, hshrinks⟩ := call_shrinks hs hn hc
  obtain rfl := Option.some.inj (hstep.symm.trans hstep')
  refine ⟨⟨fun i hi => ?_, fun i j hi hj hij => ?_⟩, ?_, fun i hi => ?_⟩
  · rw [hsame.image]
    exact hk.heap i (hshrinks.live i hi).1
  · rw [hsame.image, hsame.image]
    exact hk.other i j (hshrinks.live i hi).1 (hshrinks.live j hj).1 hij
  · rw [hsame.next]
    exact hk.next_ge
  · rw [hsame.image, hsame.next]
    exact hk.below i (hshrinks.live i hi).1

theorem Request.NoWrap.bounds (hw : r.NoWrap k) : k.nextLoadAddr ≤ r.loadAddr k ∧
    r.loadAddr k + (r.info k).loadSize ≤ align64K (r.loadAddr k + (r.info k).loadSize + 0x10000) := by
  have haddr := hw.addr
  have hload : r.loadAddr k = (k.nextLoadAddr + r.aslrOffset + 0xFFFF) / 0x10000 * 0x10000 := by
    rw [Request.loadAddr, align64K_of_lt haddr]
  rw [align64K_of_lt hw.next]
  constructor
  · omega
  · omega

theorem Kernel.Loaded.create (hk : k.Loaded h) (hr : r.Succeeds k) (hw : r.NoWrap k)
    (hheap : Disjoint (Set.Ico (r.loadAddr k) (r.loadAddr k + (r.info k).loadSize)) h.bytes) :
    (processCreate k r).2.Loaded h := by
  obtain ⟨slot, hslot, htable, himage, -, hnext⟩ := processCreate_success hr.result
  obtain ⟨haddr, hend⟩ := hw.bounds
  rw [hr.base_eq] at himage
  have hold : ∀ i, i ≠ slot → (processCreate k r).2.image i = k.image i ∧
      ((processCreate k r).2.state i ≠ .free → k.state i ≠ .free) := by
    intro i hi
    refine ⟨congrArg (fun p : Process => Set.Ico p.loadBase (p.loadBase + p.loadSize))
      (htable i hi), ?_⟩
    rw [Kernel.state, htable i hi]
    exact id
  have hnew : ∀ i, i ≠ slot → (processCreate k r).2.state i ≠ .free →
      Disjoint ((processCreate k r).2.image i) ((processCreate k r).2.image slot) := by
    intro i hi hlive
    rw [(hold i hi).1, himage, Set.disjoint_left]
    intro x hx hx'
    have hlt := hk.below i ((hold i hi).2 hlive) x hx
    have hge := hx'.1
    omega
  refine ⟨⟨fun i hi => ?_, fun i j hi hj hij => ?_⟩, ?_, fun i hi x hx => ?_⟩
  · by_cases his : i = slot
    · rw [his, himage]
      exact hheap
    · rw [(hold i his).1]
      exact hk.heap i ((hold i his).2 hi)
  · by_cases his : i = slot
    · rw [his] at hij ⊢
      exact (hnew j (Ne.symm hij) hj).symm
    · by_cases hjs : j = slot
      · rw [hjs]
        exact hnew i his hi
      · rw [(hold i his).1, (hold j hjs).1]
        exact hk.other i j ((hold i his).2 hi) ((hold j hjs).2 hj) hij
  · rw [hnext]
    exact hk.next_ge.trans (haddr.trans ((Nat.le_add_right _ _).trans hend))
  · rw [hnext]
    by_cases his : i = slot
    · rw [his, himage] at hx
      exact hx.2.trans_le hend
    · rw [(hold i his).1] at hx
      have hlt := hk.below i ((hold i his).2 hi) x hx
      omega

theorem image_disjoint_heap_iff (hk : k.Loaded h) (hw : r.NoWrap k)
    (hstart : h.heapStart ≤ programLoadBase) :
    Disjoint (Set.Ico (r.loadAddr k) (r.loadAddr k + (r.info k).loadSize)) h.bytes ↔
      r.BehindHeap k h.heapEnd := by
  have hge := hk.next_ge
  have haddr := hw.bounds.1
  rw [Mm.Heap.bytes, Set.disjoint_left, Request.BehindHeap]
  constructor
  · intro hdisj hne
    by_contra hlt
    exact hdisj (a := r.loadAddr k) ⟨le_rfl, by omega⟩ ⟨by omega, by omega⟩
  · rintro hbehind x ⟨hlo, hhi⟩ ⟨-, hlt⟩
    have := hbehind (by omega)
    omega

theorem processInit_loaded (h : Mm.Heap) : (processInit .static).Loaded h where
  heap _ hi := absurd rfl hi
  other _ _ hi := absurd rfl hi
  next_ge := by decide
  below _ hi := absurd rfl hi

theorem ClearRun.loaded (hstart : h.heapStart ≤ programLoadBase) (hrun : ClearRun h.heapEnd calls k) :
    k.SingleRunning ∧ k.Numbered ∧ k.Loaded h := by
  refine hrun.invariant (I := fun k => k.SingleRunning ∧ k.Numbered ∧ k.Loaded h) ?_
    ⟨processInit_keeps.1, processInit_keeps.2, processInit_loaded h⟩
  rintro k c k' ⟨hs, hn, hk⟩ ⟨hstep, hclear⟩
  obtain ⟨k'', hstep', hs', hn'⟩ := call_keeps hs hn c
  obtain rfl := Option.some.inj (hstep.symm.trans hstep')
  refine ⟨hs', hn', ?_⟩
  by_cases hc : ∀ r, c ≠ .create r
  · exact hk.call hn hs hc hstep
  · push Not at hc
    obtain ⟨r, rfl⟩ := hc
    obtain ⟨hr, hw, hbehind⟩ := hclear r rfl
    obtain rfl := Option.some.inj hstep
    exact hk.create hr hw ((image_disjoint_heap_iff hk hw hstart).mpr hbehind)

/-- Images overlap neither the heap nor each other as long as every program is loaded behind the
heap and no sum wraps; and the next program, if no sum wraps, keeps it so just when its image is
empty or behind the heap. -/
theorem images_apart (mem : Bytes) (totalMemory : ℕ)
    (hrun : ClearRun (Mm.HeapSystem.init mem totalMemory).heap.heapEnd calls k) :
    k.ImagesApart (Mm.HeapSystem.init mem totalMemory).heap.bytes ∧
      ∀ r : Request, r.Succeeds k → r.NoWrap k →
        ((processCreate k r).2.ImagesApart (Mm.HeapSystem.init mem totalMemory).heap.bytes ↔
          r.BehindHeap k (Mm.HeapSystem.init mem totalMemory).heap.heapEnd) := by
  have hstart : (Mm.HeapSystem.init mem totalMemory).heap.heapStart ≤ programLoadBase :=
    show Mm.heapBase ≤ programLoadBase by decide
  obtain ⟨-, -, hk⟩ := ClearRun.loaded hstart hrun
  refine ⟨hk.toImagesApart, fun r hr hw => ?_⟩
  rw [← image_disjoint_heap_iff hk hw hstart]
  constructor
  · intro hapart
    obtain ⟨slot, -, -, himage, hstate, -⟩ := processCreate_success hr.result
    have hdisj := hapart.heap slot (by rw [hstate]; decide)
    rwa [himage, hr.base_eq] at hdisj
  · exact fun hheap => (hk.create hr hw hheap).toImagesApart

/-- The random offset takes it past the heap of a machine with 1 GiB. -/
def displaced : Request := { program with aslrOffset := 0x20000000 }

theorem images_apart_two : ∃ k, ClearRun (Mm.HeapSystem.init (fun _ => 0) 0x40000000).heap.heapEnd
      [.create displaced, .create displaced] k ∧ k.nextLoadAddr = 0x84040000 ∧
    k.ImagesApart (Mm.HeapSystem.init (fun _ => 0) 0x40000000).heap.bytes := by
  have hend : (Mm.HeapSystem.init (fun _ => 0) 0x40000000).heap.heapEnd = 0x62000000 := rfl
  have hclear (k : Kernel) (hr : (processCreate k displaced).1 ≠ -1) (hw : displaced.NoWrap k)
      (hb : 0x62000000 ≤ displaced.loadAddr k) (r : Request) (heq : Call.create displaced = .create r) :
      r.Succeeds k ∧ r.NoWrap k ∧
        r.BehindHeap k (Mm.HeapSystem.init (fun _ => 0) 0x40000000).heap.heapEnd := by
    obtain rfl := Call.create.inj heq
    exact ⟨⟨hr, rfl⟩, hw, fun _ => hend ▸ hb⟩
  have hrun : ClearRun (Mm.HeapSystem.init (fun _ => 0) 0x40000000).heap.heapEnd
      [.create displaced, .create displaced] _ :=
    .cons ⟨rfl, hclear _ (by decide) ⟨by decide, by decide⟩ (by decide)⟩
      (.cons ⟨rfl, hclear _ (by decide) ⟨by decide, by decide⟩ (by decide)⟩ (.nil _))
  exact ⟨_, hrun, by decide, (images_apart (fun _ => 0) 0x40000000 hrun).1⟩

theorem first_image_in_heap : ∃ k, Kernel.Run [.create program] k ∧
    program.Succeeds (processInit .static) ∧
    ¬k.ImagesApart (Mm.HeapSystem.init (fun _ => 0) 0x40000000).heap.bytes := by
  refine ⟨(processCreate (processInit .static) program).2, .cons rfl (.nil _), ⟨by decide, rfl⟩,
    fun hapart => ?_⟩
  have himage : programLoadBase ∈ (processCreate (processInit .static) program).2.image 0 :=
    ⟨by decide, by decide⟩
  have hheap : programLoadBase ∈ (Mm.HeapSystem.init (fun _ => 0) 0x40000000).heap.bytes :=
    ⟨by decide, by decide⟩
  exact Set.disjoint_left.mp (hapart.heap 0 (by decide)) himage hheap

end GcAos.Proc
