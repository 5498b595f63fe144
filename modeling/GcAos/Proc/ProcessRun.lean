import GcAos.Proc.Kill

/-! What holds in every state that calls of the process code lead to. -/

namespace GcAos.Proc
open Lib

namespace Kernel

variable {k k' : Kernel} {i j : Slot} {f : Process → Process}

theorem modify_procTable_self (k : Kernel) (i : Slot) (f : Process → Process) :
    (k.modify i f).procTable i = f (k.procTable i) :=
  Function.update_self ..

theorem modify_procTable_of_ne (h : j ≠ i) : (k.modify i f).procTable j = k.procTable j :=
  Function.update_of_ne h ..

theorem modify_state (k : Kernel) (i j : Slot) (f : Process → Process) :
    (k.modify i f).state j = if j = i then (f (k.procTable i)).state else k.state j := by
  unfold state
  split
  · next h => rw [h, modify_procTable_self]
  · next h => rw [modify_procTable_of_ne h]

theorem setState_state (k : Kernel) (i j : Slot) (s : ProcState) :
    (k.setState i s).state j = if j = i then s else k.state j :=
  modify_state ..

@[simp] theorem modify_currentPid : (k.modify i f).currentPid = k.currentPid := rfl
@[simp] theorem modify_currentProcess : (k.modify i f).currentProcess = k.currentProcess := rfl
@[simp] theorem modify_nextPid : (k.modify i f).nextPid = k.nextPid := rfl
@[simp] theorem modify_nextLoadAddr : (k.modify i f).nextLoadAddr = k.nextLoadAddr := rfl

structure SingleRunning (k : Kernel) : Prop where
  process : k.currentProcess = k.currentPid
  running : ∀ i, k.state i = .running ↔ k.currentPid = some i

/-- As `SingleRunning`, with a current process that may have given up the processor. -/
structure Scheduling (k : Kernel) : Prop where
  process : k.currentProcess = k.currentPid
  running : ∀ i, k.state i = .running → k.currentPid = some i
  current : ∀ i, k.currentPid = some i → k.state i = .running ∨ k.state i = .ready

/-- From `k` to `k'` no process is added, renamed or given another parent. -/
structure Shrinks (k k' : Kernel) : Prop where
  nextPid : k'.nextPid = k.nextPid
  parentPid : ∀ i, (k'.procTable i).parentPid = (k.procTable i).parentPid
  live : ∀ i, k'.state i ≠ .free → k.state i ≠ .free ∧ (k'.procTable i).pid = (k.procTable i).pid

structure Numbered (k : Kernel) : Prop extends Genealogy k where
  pid_lt : ∀ i, k.state i ≠ .free → (k.procTable i).pid < k.nextPid
  parentPid_lt : ∀ i, (k.procTable i).parentPid < k.nextPid
  slot_lt : ∀ i, k.state i ≠ .free → (i.val : ℤ) < (k.procTable i).pid
  nextPid_pos : 0 < k.nextPid

theorem SingleRunning.scheduling (h : k.SingleRunning) : k.Scheduling where
  process := h.process
  running i := (h.running i).mp
  current i hi := .inl ((h.running i).mpr hi)

theorem SingleRunning.live (h : k.SingleRunning) (hc : k.currentPid = some i) : k.state i ≠ .free := by
  rw [(h.running i).mpr hc]
  decide

theorem SingleRunning.modify (h : k.SingleRunning) (hc : k.currentPid ≠ some i)
    (hf : (f (k.procTable i)).state ≠ .running) : (k.modify i f).SingleRunning where
  process := h.process
  running j := by
    rw [modify_state, modify_currentPid]
    split
    · next hji =>
      subst hji
      exact iff_of_false hf hc
    · exact h.running j

theorem SingleRunning.release (h : k.SingleRunning) (V : Finset Slot) : (k.release V).SingleRunning where
  process := h.process
  running i := by
    rw [release_currentPid, ← h.running i]
    by_cases hfree : (k.release V).state i = .free
    · rw [hfree]
      refine iff_of_false (by decide) fun hrun => ?_
      unfold state at hfree hrun
      rw [release_procTable_current ((h.running i).mp hrun), hrun] at hfree
      exact absurd hfree (by decide)
    · unfold state
      rw [release_state_of_ne_free hfree]

namespace Shrinks

variable {k'' : Kernel}

theorem refl (k : Kernel) : k.Shrinks k := ⟨rfl, fun _ => rfl, fun _ h => ⟨h, rfl⟩⟩

theorem trans (h : k.Shrinks k') (h' : k'.Shrinks k'') : k.Shrinks k'' where
  nextPid := h'.nextPid.trans h.nextPid
  parentPid i := (h'.parentPid i).trans (h.parentPid i)
  live i hi := by
    obtain ⟨hlive', hpid'⟩ := h'.live i hi
    obtain ⟨hlive, hpid⟩ := h.live i hlive'
    exact ⟨hlive, hpid'.trans hpid⟩

theorem modify (k : Kernel) (hparent : (f (k.procTable i)).parentPid = (k.procTable i).parentPid)
    (hlive : (f (k.procTable i)).state ≠ .free →
      k.state i ≠ .free ∧ (f (k.procTable i)).pid = (k.procTable i).pid) : k.Shrinks (k.modify i f) where
  nextPid := rfl
  parentPid j := by
    by_cases hji : j = i
    · rw [hji, modify_procTable_self, hparent]
    · rw [modify_procTable_of_ne hji]
  live j hj := by
    by_cases hji : j = i
    · subst hji
      rw [modify_state, if_pos rfl] at hj
      rw [modify_procTable_self]
      exact hlive hj
    · rw [modify_state, if_neg hji] at hj
      rw [modify_procTable_of_ne hji]
      exact ⟨hj, rfl⟩

theorem setState (hi : k.state i ≠ .free) (s : ProcState) : k.Shrinks (k.setState i s) :=
  modify k rfl fun _ => ⟨hi, rfl⟩

theorem release (k : Kernel) (V : Finset Slot) : k.Shrinks (k.release V) where
  nextPid := rfl
  parentPid _ := release_parentPid
  live i hi := by
    have hsame := release_state_of_ne_free hi
    unfold state at hi ⊢
    rw [hsame] at hi ⊢
    exact ⟨hi, rfl⟩

theorem saveContext (k : Kernel) (saved : Context) (old : Option Slot) :
    k.Shrinks (saveContext k saved old) := by
  cases old with
  | none => exact ⟨rfl, fun _ => rfl, fun _ h => ⟨h, rfl⟩⟩
  | some i => exact modify (f := fun p => { p with context := saved }) k rfl fun h => ⟨h, rfl⟩

theorem numbered (h : k.Shrinks k') (hk : k.Numbered) : k'.Numbered where
  pid_inj i j hi hj heq := by
    obtain ⟨hi, hpi⟩ := h.live i hi
    obtain ⟨hj, hpj⟩ := h.live j hj
    exact hk.pid_inj i j hi hj (by rw [← hpi, ← hpj, heq])
  older i hi := by
    obtain ⟨hi, hpid⟩ := h.live i hi
    rw [h.parentPid, hpid]
    exact hk.older i hi
  pid_lt i hi := by
    obtain ⟨hi, hpid⟩ := h.live i hi
    rw [h.nextPid, hpid]
    exact hk.pid_lt i hi
  parentPid_lt i := by
    rw [h.nextPid, h.parentPid]
    exact hk.parentPid_lt i
  slot_lt i hi := by
    obtain ⟨hi, hpid⟩ := h.live i hi
    rw [hpid]
    exact hk.slot_lt i hi
  nextPid_pos := h.nextPid ▸ hk.nextPid_pos

end Shrinks

end Kernel

open Kernel

section Create

variable {k : Kernel} {r : Request} {slot : Slot}

/-- The file is there, is read and loaded, so that only a stack is missing. -/
structure Request.Loads (r : Request) (k : Kernel) : Prop where
  read : ∃ file, r.file = some file ∧ file.isDir = false ∧ file.size ≠ 0 ∧
    r.bytes = (file.size : ℤ).bmod (2 ^ 32)
  buffer : r.data ≠ 0
  valid : r.progSize ≠ 0
  loaded : (r.loadAt (r.loadAddr k)).1 = 0

theorem findFreeSlot_free (h : findFreeSlotUnlocked k = some slot) : k.state slot = .free := by
  simpa using List.find?_some h

theorem findFreeSlot_before {i : Slot} (h : findFreeSlotUnlocked k = some slot) (hi : i < slot) :
    k.state i ≠ .free := by
  intro hfree
  obtain ⟨-, n, hn, heq, hbefore⟩ := List.find?_eq_some_iff_getElem.mp h
  rw [List.getElem_finRange] at heq
  have hlt : i.val < n := by
    rw [← heq] at hi
    exact hi
  simpa [hfree] using hbefore i.val hlt

theorem findFreeSlot_eq_none_iff : findFreeSlotUnlocked k = none ↔ ∀ i, k.state i ≠ .free := by
  unfold findFreeSlotUnlocked
  rw [List.find?_eq_none]
  simp

theorem findFreeSlot_ne_current (hk : k.SingleRunning) (h : findFreeSlotUnlocked k = some slot) :
    k.currentPid ≠ some slot := fun hc => hk.live hc (findFreeSlot_free h)

theorem processCreate_cases (k : Kernel) (r : Request) :
    (findFreeSlotUnlocked k = none ∧ processCreate k r = (-1, k)) ∨
      ∃ slot, findFreeSlotUnlocked k = some slot ∧
        (¬r.Loads k ∧ processCreate k r = (-1, reserve k slot) ∨
          r.Loads k ∧
            processCreate k r = setUp (reserve k slot) r slot (r.loadAt (r.loadAddr k)).2) := by
  cases hslot : findFreeSlotUnlocked k with
  | none => exact .inl ⟨rfl, by rw [processCreate, hslot]⟩
  | some slot =>
    refine .inr ⟨slot, rfl, ?_⟩
    have haddr : r.loadAddr (reserve k slot) = r.loadAddr k := rfl
    rw [processCreate, hslot]
    dsimp only
    rw [haddr]
    split
    · next hfile =>
      refine .inl ⟨?_, rfl⟩
      rintro ⟨⟨file, hsome, -⟩, -, -, -⟩
      rw [hfile] at hsome
      exact absurd hsome (by simp)
    · next file hfile =>
      have hread (h : r.Loads k) : file.isDir = false ∧ file.size ≠ 0 ∧
          r.bytes = (file.size : ℤ).bmod (2 ^ 32) := by
        obtain ⟨⟨file', hsome, hread⟩, -, -, -⟩ := h
        obtain rfl := Option.some.inj (hfile.symm.trans hsome)
        exact hread
      split_ifs with hdir hsize hdata hbytes hvalid hload
      · exact .inl ⟨fun h => by simpa [hdir] using (hread h).1, rfl⟩
      · exact .inl ⟨fun h => (hread h).2.1 hsize, rfl⟩
      · exact .inl ⟨fun h => h.buffer hdata, rfl⟩
      · exact .inl ⟨fun h => hbytes (hread h).2.2, rfl⟩
      · exact .inl ⟨fun h => h.valid hvalid, rfl⟩
      · exact .inl ⟨fun h => hload h.loaded, rfl⟩
      · refine .inr ⟨⟨⟨file, hfile, ?_, hsize, not_not.mp hbytes⟩, hdata, hvalid, not_not.mp hload⟩, rfl⟩
        simpa using hdir

theorem reserve_procTable_self (k : Kernel) (slot : Slot) :
    (reserve k slot).procTable slot = { k.procTable slot with state := .ready, pid := k.nextPid } :=
  Function.update_self ..

theorem reserve_procTable_of_ne {i : Slot} (h : i ≠ slot) :
    (reserve k slot).procTable i = k.procTable i :=
  Function.update_of_ne h ..

theorem reserve_state_self (k : Kernel) (slot : Slot) : (reserve k slot).state slot = .ready := by
  rw [Kernel.state, reserve_procTable_self]

theorem reserve_singleRunning (hk : k.SingleRunning) (hc : k.currentPid ≠ some slot) :
    (reserve k slot).SingleRunning :=
  have h := hk.modify (f := fun p => { p with state := .ready, pid := k.nextPid }) hc (by simp)
  ⟨h.process, h.running⟩

theorem findFreeSlot_lt_nextPid (hk : k.Numbered) (h : findFreeSlotUnlocked k = some slot) :
    (slot.val : ℤ) < k.nextPid := by
  obtain ⟨n, hn⟩ := slot
  cases n with
  | zero => exact hk.nextPid_pos
  | succ n =>
    have hlive := findFreeSlot_before h (i := ⟨n, by omega⟩) (Fin.mk_lt_mk.mpr n.lt_succ_self)
    have hslot := hk.slot_lt _ hlive
    have hpid := hk.pid_lt _ hlive
    dsimp only at hslot ⊢
    omega

theorem Kernel.Numbered.assign {k' : Kernel} (hk : k.Numbered) (hslot : (slot.val : ℤ) < k.nextPid)
    (hother : ∀ i, i ≠ slot → k'.procTable i = k.procTable i)
    (hpid : (k'.procTable slot).pid = k.nextPid) (hparent : (k'.procTable slot).parentPid < k.nextPid)
    (hnext : k'.nextPid = k.nextPid + 1) : k'.Numbered := by
  have hlive {i : Slot} (hi : k'.state i ≠ .free) (hne : i ≠ slot) : k.state i ≠ .free := by
    rwa [Kernel.state, hother i hne] at hi
  have hlt {i : Slot} (hi : k'.state i ≠ .free) (hne : i ≠ slot) : (k'.procTable i).pid < k.nextPid := by
    rw [hother i hne]
    exact hk.pid_lt i (hlive hi hne)
  refine ⟨⟨?_, ?_⟩, ?_, ?_, ?_, ?_⟩
  · intro i j hi hj heq
    by_cases his : i = slot <;> by_cases hjs : j = slot
    · rw [his, hjs]
    · rw [his, hpid] at heq
      exact absurd heq.symm (hlt hj hjs).ne
    · rw [hjs, hpid] at heq
      exact absurd heq (hlt hi his).ne
    · rw [hother i his, hother j hjs] at heq
      exact hk.pid_inj i j (hlive hi his) (hlive hj hjs) heq
  · intro i hi
    by_cases his : i = slot
    · rw [his, hpid]
      exact hparent
    · rw [hother i his]
      exact hk.older i (hlive hi his)
  · intro i hi
    rw [hnext]
    by_cases his : i = slot
    · rw [his, hpid]
      exact Int.lt_succ _
    · exact (hlt hi his).trans (Int.lt_succ _)
  · intro i
    rw [hnext]
    by_cases his : i = slot
    · rw [his]
      exact hparent.trans (Int.lt_succ _)
    · rw [hother i his]
      exact (hk.parentPid_lt i).trans (Int.lt_succ _)
  · intro i hi
    by_cases his : i = slot
    · rw [his, hpid]
      exact hslot
    · rw [hother i his]
      exact hk.slot_lt i (hlive hi his)
  · rw [hnext]
    exact hk.nextPid_pos.trans (Int.lt_succ _)

theorem reserve_numbered (hk : k.Numbered) (h : findFreeSlotUnlocked k = some slot) :
    (reserve k slot).Numbered := by
  apply hk.assign (findFreeSlot_lt_nextPid hk h) (fun i hi => reserve_procTable_of_ne hi)
  · rw [reserve_procTable_self]
  · rw [reserve_procTable_self]
    exact hk.parentPid_lt slot
  · rfl

theorem Kernel.SingleRunning.currentNumber_lt (h : k.SingleRunning) (hk : k.Numbered) :
    k.currentNumber < k.nextPid := by
  unfold currentNumber
  split
  · have hpos := hk.nextPid_pos
    omega
  · next c hc => exact (hk.slot_lt c (h.live hc)).trans (hk.pid_lt c (h.live hc))

/-- The process that `setUp` enters in the table. -/
def Request.process (r : Request) (k : Kernel) (slot : Slot) (info : LoadInfo) : Process :=
  { k.procTable slot with
    pid := k.nextPid
    name := r.path.take (processNameMax - 1)
    state := .ready
    loadBase := info.loadBase
    loadSize := info.loadSize
    entry := info.entry
    parentPid := k.currentNumber
    exitStatus := 0
    stackSize := processStackSize
    stackBase := r.stack }

def enter (k : Kernel) (r : Request) (slot : Slot) (info : LoadInfo) (p : Process) : Kernel :=
  { k with
    procTable := Function.update k.procTable slot p
    nextLoadAddr := align64K (r.loadAddr k + info.loadSize + 0x10000)
    nextPid := k.nextPid + 1 }

theorem setUp_of_no_stack (info : LoadInfo) (h : r.stack = 0) :
    setUp k r slot info = (-1, enter k r slot info { r.process k slot info with state := .free }) := by
  simp [setUp, h, setState, Kernel.modify, enter, Request.process, currentNumber]

theorem setUp_of_stack (info : LoadInfo) (h : r.stack ≠ 0) :
    setUp k r slot info = (k.nextPid, enter k r slot info
      { r.process k slot info with context := r.context info.entry }) := by
  simp [setUp, h, Kernel.modify, enter, Request.process, currentNumber]

theorem enter_numbered {p : Process} (info : LoadInfo) (hk : k.Numbered)
    (hslot : (slot.val : ℤ) < k.nextPid) (hpid : p.pid = k.nextPid) (hparent : p.parentPid < k.nextPid) :
    (enter k r slot info p).Numbered := by
  have hself : (enter k r slot info p).procTable slot = p := Function.update_self ..
  apply hk.assign hslot (fun i hi => Function.update_of_ne hi ..)
  · rw [hself, hpid]
  · rw [hself]
    exact hparent
  · rfl

theorem enter_singleRunning {p : Process} (info : LoadInfo) (hk : k.SingleRunning)
    (hc : k.currentPid ≠ some slot) (hp : p.state ≠ .running) :
    (enter k r slot info p).SingleRunning :=
  have h := hk.modify (f := fun _ => p) hc hp
  ⟨h.process, h.running⟩

theorem processCreate_keeps (hk : k.SingleRunning) (hn : k.Numbered) :
    (processCreate k r).2.SingleRunning ∧ (processCreate k r).2.Numbered := by
  rcases processCreate_cases k r with ⟨-, heq⟩ | ⟨slot, hslot, ⟨-, heq⟩ | ⟨-, heq⟩⟩
  · rw [heq]
    exact ⟨hk, hn⟩
  · rw [heq]
    exact ⟨reserve_singleRunning hk (findFreeSlot_ne_current hk hslot), reserve_numbered hn hslot⟩
  · have hc := findFreeSlot_ne_current hk hslot
    have hk' := reserve_singleRunning hk hc
    have hn' := reserve_numbered hn hslot
    have hlt : (slot.val : ℤ) < (reserve k slot).nextPid :=
      (findFreeSlot_lt_nextPid hn hslot).trans (Int.lt_succ _)
    have hparent := hk'.currentNumber_lt hn'
    rw [heq]
    by_cases hstack : r.stack = 0
    · rw [setUp_of_no_stack _ hstack]
      exact ⟨enter_singleRunning _ hk' hc (by simp), enter_numbered _ hn' hlt rfl hparent⟩
    · rw [setUp_of_stack _ hstack]
      exact ⟨enter_singleRunning _ hk' hc (by simp [Request.process]), enter_numbered _ hn' hlt rfl hparent⟩

end Create

section Schedule

variable {k : Kernel} {saved : Context} {i next : Slot}

theorem mem_rotation (k : Kernel) (i : Slot) : i ∈ rotation k := by
  refine List.mem_map.mpr ⟨(i.val + (16 - start k % 16)) % 16, ?_, ?_⟩
  · exact List.mem_range.mpr (Nat.mod_lt _ (by decide))
  · apply Fin.ext
    have hi : i.val < 16 := i.isLt
    change (start k + (i.val + (16 - start k % 16)) % 16) % 16 = i.val
    omega

theorem saveContext_state (k : Kernel) (saved : Context) (old : Option Slot) (i : Slot) :
    (saveContext k saved old).state i = k.state i := by
  cases old with
  | none => rfl
  | some j =>
    refine (modify_state k j i fun p => { p with context := saved }).trans ?_
    split
    · next hij => rw [hij, Kernel.state]
    · rfl

theorem saveContext_currentPid (k : Kernel) (saved : Context) (old : Option Slot) :
    (saveContext k saved old).currentPid = k.currentPid := by
  cases old <;> rfl

theorem saveContext_currentProcess (k : Kernel) (saved : Context) (old : Option Slot) :
    (saveContext k saved old).currentProcess = k.currentProcess := by
  cases old <;> rfl

theorem saveContext_singleRunning (hk : k.SingleRunning) (saved : Context) (old : Option Slot) :
    (saveContext k saved old).SingleRunning where
  process := by
    rw [saveContext_currentPid, saveContext_currentProcess]
    exact hk.process
  running i := by
    rw [saveContext_state, saveContext_currentPid]
    exact hk.running i

theorem stopCurrent_state (hk : k.Scheduling) (i : Slot) :
    (stopCurrent k).state i = if k.state i = .running then .ready else k.state i := by
  unfold stopCurrent
  split
  · next hnone =>
    rw [if_neg]
    intro hrun
    exact absurd ((hk.running i hrun).symm.trans hnone) (by simp)
  · next old hold =>
    have hold' {j : Slot} (hj : k.state j = .running) : j = old :=
      Option.some.inj ((hk.running j hj).symm.trans hold)
    split
    · next hrun =>
      rw [setState_state]
      by_cases hi : i = old
      · rw [if_pos hi, hi, if_pos hrun]
      · rw [if_neg hi, if_neg fun h => hi (hold' h)]
    · next hrun => rw [if_neg fun h => hrun (hold' h ▸ h)]

theorem switchTo_state (hk : k.Scheduling) (i : Slot) : (switchTo k next).state i =
    if i = next then .running else if k.state i = .running then .ready else k.state i := by
  refine (setState_state ..).trans ?_
  rw [stopCurrent_state hk]

theorem switchTo_singleRunning (hk : k.Scheduling) (next : Slot) : (switchTo k next).SingleRunning where
  process := rfl
  running i := by
    have hcurrent : (switchTo k next).currentPid = some next := rfl
    rw [switchTo_state hk, hcurrent, Option.some.injEq]
    split
    · next hi => exact iff_of_true rfl hi.symm
    · next hi =>
      refine iff_of_false ?_ (Ne.symm hi)
      split
      · decide
      · assumption

theorem stopCurrent_shrinks (k : Kernel) : k.Shrinks (stopCurrent k) := by
  unfold stopCurrent
  split
  · exact .refl k
  · split
    · next hrun =>
      apply Shrinks.setState
      rw [hrun]
      decide
    · exact .refl k

theorem switchTo_shrinks (hk : k.Scheduling) (hnext : k.state next = .ready) :
    k.Shrinks (switchTo k next) := by
  have hlive : (stopCurrent k).state next ≠ .free := by
    rw [stopCurrent_state hk, hnext]
    decide
  refine (stopCurrent_shrinks k).trans ((Shrinks.setState hlive .running).trans ?_)
  exact ⟨rfl, fun _ => rfl, fun _ h => ⟨h, rfl⟩⟩

theorem processSchedule_singleRunning (hk : k.Scheduling) (saved : Context) :
    (processSchedule k saved).SingleRunning := by
  unfold processSchedule
  split
  · next hnone =>
    have hnot (i : Slot) : k.state i ≠ .ready := by
      simpa using List.find?_eq_none.mp hnone i (mem_rotation k i)
    have hrunning {c : Slot} (hc : k.currentPid = some c) : k.state c = .running :=
      (hk.current c hc).resolve_right (hnot c)
    have hsingle : k.SingleRunning := ⟨hk.process, fun i => ⟨hk.running i, hrunning⟩⟩
    split
    · exact hsingle
    · next old hold =>
      rw [if_pos (hrunning hold)]
      exact hsingle
  · next n hnext =>
    have hready : k.state n = .ready := by simpa using List.find?_some hnext
    split
    · next h => exact absurd (hready.symm.trans h.2) (by decide)
    · split
      · next h =>
        refine ⟨hk.process, fun i => ?_⟩
        have hcurrent : (k.setState n .running).currentPid = some n := h.1
        rw [setState_state, hcurrent, Option.some.injEq]
        split
        · next hi => exact iff_of_true rfl hi.symm
        · next hi =>
          refine iff_of_false (fun hrun => ?_) (Ne.symm hi)
          exact hi (Option.some.inj ((hk.running i hrun).symm.trans h.1))
      · exact saveContext_singleRunning (switchTo_singleRunning hk n) ..

theorem processSchedule_shrinks (hk : k.Scheduling) (saved : Context) :
    k.Shrinks (processSchedule k saved) := by
  have hleave : k.Shrinks { k with currentPid := none, currentProcess := none } :=
    ⟨rfl, fun _ => rfl, fun _ h => ⟨h, rfl⟩⟩
  unfold processSchedule
  split
  · split
    · exact .refl k
    · split
      · exact .refl k
      · exact hleave.trans (.saveContext ..)
  · next n hnext =>
    have hready : k.state n = .ready := by simpa using List.find?_some hnext
    split
    · exact .refl k
    · split
      · apply Shrinks.setState
        rw [hready]
        decide
      · exact (switchTo_shrinks hk hready).trans (.saveContext ..)

theorem processYield_shrinks (hk : k.SingleRunning) (saved : Context) :
    (processYield k saved).SingleRunning ∧ k.Shrinks (processYield k saved) := by
  unfold processYield
  split
  · exact ⟨processSchedule_singleRunning hk.scheduling saved, processSchedule_shrinks hk.scheduling saved⟩
  · next c hc =>
    have hyield : (k.setState c .ready).Scheduling := by
      refine ⟨hk.process, fun i hi => ?_, fun i hi => ?_⟩
      · rw [setState_state] at hi
        split at hi
        · exact absurd hi (by decide)
        · exact (hk.running i).mp hi
      · obtain rfl := Option.some.inj (hc.symm.trans hi)
        rw [setState_state, if_pos rfl]
        exact .inr rfl
    exact ⟨processSchedule_singleRunning hyield saved,
      (Shrinks.setState (hk.live hc) .ready).trans (processSchedule_shrinks hyield saved)⟩

theorem processScheduleFromIrq_shrinks (hk : k.SingleRunning) :
    (processScheduleFromIrq k).SingleRunning ∧ k.Shrinks (processScheduleFromIrq k) := by
  unfold processScheduleFromIrq
  split
  · exact ⟨hk, .refl k⟩
  · split
    · exact ⟨hk, .refl k⟩
    · split
      · exact ⟨hk, .refl k⟩
      · next n hnext =>
        have hready : k.state n = .ready := by
          have hfound := List.find?_some hnext
          simp only [decide_eq_true_eq] at hfound
          exact hfound.1
        split
        · exact ⟨hk, .refl k⟩
        · exact ⟨switchTo_singleRunning hk.scheduling n, switchTo_shrinks hk.scheduling hready⟩

theorem irqHandler_shrinks (hk : k.SingleRunning) (saved : Context) :
    (irqHandler k saved).SingleRunning ∧ k.Shrinks (irqHandler k saved) := by
  unfold irqHandler
  split
  · obtain ⟨hk', hshrinks⟩ := processScheduleFromIrq_shrinks hk
    dsimp only
    split
    · exact ⟨hk', hshrinks⟩
    · exact ⟨saveContext_singleRunning hk' .., hshrinks.trans (.saveContext ..)⟩
  · next i _ =>
    obtain ⟨hk', hshrinks⟩ := processScheduleFromIrq_shrinks (saveContext_singleRunning hk saved (some i))
    exact ⟨hk', (Shrinks.saveContext ..).trans hshrinks⟩

end Schedule

section Kill

variable {k k' : Kernel} {slot : Slot} {V : Finset Slot} {pid status : ℤ} {saved : Context}

/-- The end of `process_exit`, in the slot of the process that ends. -/
def leave (k : Kernel) (slot : Slot) (status : ℤ) : Kernel :=
  { k.modify slot fun p => { p with exitStatus := status, state := .free } with
    currentPid := none, currentProcess := none }

theorem leave_state (k : Kernel) (slot i : Slot) (status : ℤ) :
    (leave k slot status).state i = if i = slot then .free else k.state i :=
  modify_state k slot i fun p => { p with exitStatus := status, state := .free }

theorem leave_singleRunning (hk : k.SingleRunning) (hc : k.currentPid = some slot) (status : ℤ) :
    (leave k slot status).SingleRunning where
  process := rfl
  running i := by
    rw [leave_state]
    refine iff_of_false ?_ (by simp [leave])
    split
    · decide
    · next hi =>
      intro hrun
      exact hi (Option.some.inj (((hk.running i).mp hrun).symm.trans hc))

theorem leave_shrinks (k : Kernel) (slot : Slot) (status : ℤ) : k.Shrinks (leave k slot status) :=
  have h := Shrinks.modify (i := slot) (f := fun p => { p with exitStatus := status, state := .free }) k rfl
    fun h => absurd rfl h
  ⟨h.nextPid, h.parentPid, h.live⟩

theorem processExit_eq (hn : k.Numbered) (hc : k.currentPid = some slot) (status : ℤ) (saved : Context) :
    ∃ V k', (∀ i, i ∈ V ↔ k.Kin (k.procTable slot).pid i) ∧ processExit k status saved = some k' ∧
      (k' = leave (k.release V) slot status ∨
        k' = saveContext (leave (k.release V) slot status) saved (some slot)) := by
  obtain ⟨V, hkill, hV⟩ := killChildren_eq hn.toGenealogy (k.procTable slot).pid
  have hexit : processExit k status saved =
      if k.kernelContext.pc = 0 ∨ k.kernelContext.sp = 0 then some (leave (k.release V) slot status)
      else some (saveContext (leave (k.release V) slot status) saved (some slot)) := by
    unfold processExit
    rw [hc]
    dsimp only
    rw [hkill]
    rfl
  split at hexit
  · exact ⟨V, _, hV, hexit, .inl rfl⟩
  · exact ⟨V, _, hV, hexit, .inr rfl⟩

theorem processExit_shrinks (hk : k.SingleRunning) (hn : k.Numbered) (status : ℤ) (saved : Context) :
    ∃ k', processExit k status saved = some k' ∧ k'.SingleRunning ∧ k.Shrinks k' := by
  cases hc : k.currentPid with
  | none => exact ⟨k, by rw [processExit, hc], hk, .refl k⟩
  | some slot =>
    obtain ⟨V, k', -, hexit, hk'⟩ := processExit_eq hn hc status saved
    have hleave := leave_singleRunning (hk.release V) hc status
    have hshrinks := (Shrinks.release k V).trans (leave_shrinks _ slot status)
    refine ⟨k', hexit, ?_⟩
    rcases hk' with rfl | rfl
    · exact ⟨hleave, hshrinks⟩
    · exact ⟨saveContext_singleRunning hleave .., hshrinks.trans (.saveContext ..)⟩

/-- The slot that `process_kill` frees last. -/
def discard (k : Kernel) (slot : Slot) : Kernel :=
  k.modify slot fun p => { p with stackBase := 0, state := .free, pid := 0 }

theorem processKill_cases (hn : k.Numbered) (pid : ℤ) :
    processKill k pid = some (-1, k) ∨
      ∃ slot V, 0 < pid ∧ (k.procTable slot).pid = pid ∧ k.state slot ≠ .free ∧
        k.currentPid ≠ some slot ∧ (∀ i, i ∈ V ↔ k.Kin pid i) ∧
        processKill k pid = some (0, discard (k.release V) slot) := by
  unfold processKill
  split
  · exact .inl rfl
  · next hpos =>
    split
    · exact .inl rfl
    · next slot hfind =>
      have hfound := List.find?_some hfind
      simp only [decide_eq_true_eq] at hfound
      split
      · exact .inl rfl
      · next hc =>
        obtain ⟨V, hkill, hV⟩ := killChildren_eq hn.toGenealogy pid
        rw [hkill]
        exact .inr ⟨slot, V, not_le.mp hpos, hfound.1, hfound.2, hc, hV, rfl⟩

theorem processKill_shrinks (hk : k.SingleRunning) (hn : k.Numbered) (pid : ℤ) :
    ∃ res k', processKill k pid = some (res, k') ∧ k'.SingleRunning ∧ k.Shrinks k' := by
  rcases processKill_cases hn pid with hkill | ⟨slot, V, -, -, -, hc, -, hkill⟩
  · exact ⟨-1, k, hkill, hk, .refl k⟩
  · have hfree : (k.release V).Shrinks (discard (k.release V) slot) := .modify _ rfl fun h => absurd rfl h
    exact ⟨0, _, hkill, (hk.release V).modify hc (by simp), (Shrinks.release k V).trans hfree⟩

end Kill

namespace Kernel

variable {k : Kernel} {calls : List Call}

theorem call_shrinks (hk : k.SingleRunning) (hn : k.Numbered) {c : Call} (hc : ∀ r, c ≠ .create r) :
    ∃ k', k.Step c k' ∧ k'.SingleRunning ∧ k.Shrinks k' := by
  cases c with
  | create r => exact absurd rfl (hc r)
  | yield saved => exact ⟨_, rfl, processYield_shrinks hk saved⟩
  | schedule saved =>
    exact ⟨_, rfl, processSchedule_singleRunning hk.scheduling saved,
      processSchedule_shrinks hk.scheduling saved⟩
  | scheduleFromIrq saved => exact ⟨_, rfl, irqHandler_shrinks hk saved⟩
  | exit status saved => exact processExit_shrinks hk hn status saved
  | kill pid =>
    obtain ⟨res, k', hkill, hkeeps⟩ := processKill_shrinks hk hn pid
    exact ⟨k', congrArg (Option.map Prod.snd) hkill, hkeeps⟩

theorem call_keeps (hk : k.SingleRunning) (hn : k.Numbered) (c : Call) :
    ∃ k', k.Step c k' ∧ k'.SingleRunning ∧ k'.Numbered := by
  by_cases hc : ∀ r, c ≠ .create r
  · obtain ⟨k', hstep, hk', hshrinks⟩ := call_shrinks hk hn hc
    exact ⟨k', hstep, hk', hshrinks.numbered hn⟩
  · push Not at hc
    obtain ⟨r, rfl⟩ := hc
    exact ⟨_, rfl, processCreate_keeps hk hn⟩

theorem processInit_keeps : (processInit static).SingleRunning ∧ (processInit static).Numbered := by
  have hfree (i : Slot) : (processInit static).state i = .free := rfl
  refine ⟨⟨rfl, fun i => ?_⟩, ⟨⟨?_, ?_⟩, ?_, ?_, ?_, ?_⟩⟩
  · exact iff_of_false (by rw [hfree]; decide) (by simp [processInit])
  · exact fun i _ hi => absurd (hfree i) hi
  · exact fun i hi => absurd (hfree i) hi
  · exact fun i hi => absurd (hfree i) hi
  · exact fun i => Int.one_pos
  · exact fun i hi => absurd (hfree i) hi
  · exact Int.one_pos

theorem Run.keeps (h : Run calls k) : k.SingleRunning ∧ k.Numbered := by
  apply Exec.invariant (I := fun k => k.SingleRunning ∧ k.Numbered) _ h processInit_keeps
  rintro k c k' ⟨hk, hn⟩ hstep
  obtain ⟨k'', hstep', hkeeps⟩ := call_keeps hk hn c
  obtain rfl := Option.some.inj (hstep.symm.trans hstep')
  exact hkeeps

/-- In every state the process that runs is the current one, and every call returns. -/
theorem run_single_running (h : Run calls k) : k.SingleRunning ∧ ∀ c, ∃ k', k.Step c k' := by
  obtain ⟨hk, hn⟩ := h.keeps
  refine ⟨hk, fun c => ?_⟩
  obtain ⟨k', hstep, -⟩ := call_keeps hk hn c
  exact ⟨k', hstep⟩

end Kernel

def program : Request where
  path := [47, 97]
  argc := 0
  argv := 0
  file := some ⟨false, 64⟩
  data := 0x42800000
  bytes := 64
  progSize := 4096
  aslrOffset := 0
  loadAt base := (0, ⟨base, 4096, base⟩)
  stack := 0x42900000
  wrapper := 0x40001000
  kapi := 0x40002000

theorem run_single_running_two :
    ∃ k, Kernel.Run [.create program, .create program, .schedule {}, .yield {}] k ∧
      k.currentPid = some 1 ∧ k.SingleRunning := by
  have hrun : ∃ k, Kernel.Run [.create program, .create program, .schedule {}, .yield {}] k ∧
      k.currentPid = some 1 :=
    ⟨_, .cons rfl (.cons rfl (.cons rfl (.cons rfl (.nil _)))), by decide⟩
  obtain ⟨k, hrun, hcurrent⟩ := hrun
  exact ⟨k, hrun, hcurrent, (Kernel.run_single_running hrun).1⟩

end GcAos.Proc
