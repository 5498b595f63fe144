import GcAos.Proc.Modern

/-! What one process that changes does to the queues, and what one that comes or goes does to the
registers. -/

namespace GcAos.Proc.Modern
open Lib

/-- The parts of a process that only its creation and its end change. -/
structure Links where
  pid : ℕ
  sibling : Option ℕ
  children : List ℕ
  waitingParent : Option ℕ

def Process.links (p : Process) : Links := ⟨p.pid, p.sibling, p.children, p.waitingParent⟩

namespace ProcessManager

def state (s : ProcessManager) (a : ℕ) : Option ProcessState := (s.process a).map Process.state

def links (s : ProcessManager) (a : ℕ) : Option Links := (s.process a).map Process.links

/-- The list at the `children` head of a process. -/
def childrenOf (s : ProcessManager) (a : ℕ) : List ℕ := (s.links a).elim [] Links.children

/-- The process in whose list a `sibling` node is. -/
def siblingOf (s : ProcessManager) (a : ℕ) : Option ℕ := (s.links a).bind Links.sibling

variable {s t : ProcessManager} {a b : ℕ} {p : Process} {f : Process → Process}

theorem links_ne_none : s.links a ≠ none ↔ s.process a ≠ none := by
  rw [links, Ne, Option.map_eq_none_iff]

theorem modify_of_some (ha : s.process a = some p) :
    (s.modify a f).process = Function.update s.process a (some (f p)) := by
  rw [modify, ha]
  rfl

theorem modify_process_ne_none : (s.modify a f).process b ≠ none ↔ s.process b ≠ none := by
  dsimp only [modify]
  by_cases hb : b = a
  · subst hb
    rw [Function.update_self, Ne, Option.map_eq_none_iff]
  · rw [Function.update_of_ne hb]

theorem map_modify {β : Type*} (g : Process → β) (hf : ∀ p, g (f p) = g p) (b : ℕ) :
    ((s.modify a f).process b).map g = (s.process b).map g := by
  dsimp only [modify]
  by_cases hb : b = a
  · subst hb
    rw [Function.update_self, Option.map_map]
    exact congrArg (fun h => (s.process b).map h) (funext hf)
  · rw [Function.update_of_ne hb]

theorem links_modify (hf : ∀ p, (f p).links = p.links) : (s.modify a f).links = s.links :=
  funext (map_modify Process.links hf)

theorem state_modify_same (hf : ∀ p, (f p).state = p.state) : (s.modify a f).state = s.state :=
  funext (map_modify Process.state hf)

theorem state_modify (ha : s.process a = some p) :
    (s.modify a f).state = Function.update s.state a (some (f p).state) := by
  funext b
  rw [state, modify_of_some ha]
  by_cases hb : b = a
  · subst hb
    rw [Function.update_self, Function.update_self]
    rfl
  · rw [Function.update_of_ne hb, Function.update_of_ne hb]
    rfl

theorem unqueue_eq (s : ProcessManager) (a : ℕ) : s.unqueue a =
    { s with readyQueue := s.readyQueue.erase a, zombieQueue := s.zombieQueue.erase a } := by
  rw [unqueue]
  split
  · rfl
  · rename_i hout
    obtain ⟨hready, hzombie⟩ := not_or.mp hout
    rw [List.erase_of_not_mem hready, List.erase_of_not_mem hzombie]

end ProcessManager

variable {s t : ProcessManager} {a b : ℕ} {p : Process} {x : ProcessState}

def IdleState (x : ProcessState) : Prop := x = .ready ∨ x = .running ∨ x = .sleeping ∨ x = .blocked

structure Queues (s : ProcessManager) : Prop where
  ready_nodup : s.readyQueue.Nodup
  ready : ∀ a, a ∈ s.readyQueue ↔ a ≠ s.idleProcess ∧ s.state a = some .ready
  zombie_nodup : s.zombieQueue.Nodup
  zombie : ∀ a, a ∈ s.zombieQueue ↔ s.state a = some .zombie
  idle : ∃ x, s.state s.idleProcess = some x ∧ IdleState x

namespace Queues

theorem congr (h : Queues s) (hstate : t.state = s.state) (hready : t.readyQueue = s.readyQueue)
    (hzombie : t.zombieQueue = s.zombieQueue) (hidle : t.idleProcess = s.idleProcess) : Queues t where
  ready_nodup := by rw [hready]; exact h.ready_nodup
  ready a := by rw [hready, hidle, hstate]; exact h.ready a
  zombie_nodup := by rw [hzombie]; exact h.zombie_nodup
  zombie a := by rw [hzombie, hstate]; exact h.zombie a
  idle := by rw [hidle, hstate]; exact h.idle

/-- One process gets a new state. It is taken from the queues, and put where it belongs then. -/
theorem change (h : Queues s) (hstate : t.state = Function.update s.state a (some x))
    (hready : t.readyQueue = s.readyQueue.erase a ++ if x = .ready ∧ a ≠ s.idleProcess then [a] else [])
    (hzombie : t.zombieQueue = (if x = .zombie then [a] else []) ++ s.zombieQueue.erase a)
    (hidle : t.idleProcess = s.idleProcess) (hx : a = s.idleProcess → IdleState x) : Queues t := by
  have hself : t.state a = some x := by rw [hstate, Function.update_self]
  have hother : ∀ b ≠ a, t.state b = s.state b := fun b hb => by rw [hstate, Function.update_of_ne hb]
  have hnotready : a ∉ s.readyQueue.erase a := fun hmem => (h.ready_nodup.mem_erase_iff.mp hmem).1 rfl
  have hnotzombie : a ∉ s.zombieQueue.erase a := fun hmem =>
      (h.zombie_nodup.mem_erase_iff.mp hmem).1 rfl
  refine ⟨?_, fun b => ?_, ?_, fun b => ?_, ?_⟩
  · rw [hready]
    split
    · refine List.nodup_append.mpr ⟨h.ready_nodup.erase a, List.nodup_singleton a, ?_⟩
      rintro b hb c hc rfl
      rw [List.mem_singleton.mp hc] at hb
      exact hnotready hb
    · rw [List.append_nil]
      exact h.ready_nodup.erase a
  · rw [hready, hidle, List.mem_append]
    by_cases hb : b = a
    · subst hb
      rw [or_iff_right hnotready, hself, Option.some_inj]
      split
      · rename_i hcond
        exact iff_of_true List.mem_cons_self ⟨hcond.2, hcond.1⟩
      · rename_i hcond
        exact iff_of_false List.not_mem_nil fun hboth => hcond ⟨hboth.2, hboth.1⟩
    · have hout : b ∉ if x = .ready ∧ a ≠ s.idleProcess then [a] else [] := by
        split
        · exact fun hmem => hb (List.mem_singleton.mp hmem)
        · exact List.not_mem_nil
      rw [or_iff_left hout, List.mem_erase_of_ne hb, hother b hb]
      exact h.ready b
  · rw [hzombie]
    split
    · exact List.nodup_cons.mpr ⟨hnotzombie, h.zombie_nodup.erase a⟩
    · exact h.zombie_nodup.erase a
  · rw [hzombie, List.mem_append]
    by_cases hb : b = a
    · subst hb
      rw [or_iff_left hnotzombie, hself, Option.some_inj]
      split
      · rename_i hcond
        exact iff_of_true List.mem_cons_self hcond
      · rename_i hcond
        exact iff_of_false List.not_mem_nil hcond
    · have hout : b ∉ if x = .zombie then [a] else [] := by
        split
        · exact fun hmem => hb (List.mem_singleton.mp hmem)
        · exact List.not_mem_nil
      rw [or_iff_right hout, List.mem_erase_of_ne hb, hother b hb]
      exact h.zombie b
  · rw [hidle]
    by_cases heq : a = s.idleProcess
    · rw [← heq, hself]
      exact ⟨x, rfl, hx heq⟩
    · rw [hother _ fun hidle => heq hidle.symm]
      exact h.idle

theorem remove (h : Queues s) (hstate : t.state = Function.update s.state a none)
    (hready : t.readyQueue = s.readyQueue.erase a) (hzombie : t.zombieQueue = s.zombieQueue.erase a)
    (hidle : t.idleProcess = s.idleProcess) (hne : a ≠ s.idleProcess) : Queues t := by
  have hself : t.state a = none := by rw [hstate, Function.update_self]
  have hother : ∀ b ≠ a, t.state b = s.state b := fun b hb => by rw [hstate, Function.update_of_ne hb]
  refine ⟨?_, fun b => ?_, ?_, fun b => ?_, ?_⟩
  · rw [hready]
    exact h.ready_nodup.erase a
  · rw [hready, hidle, h.ready_nodup.mem_erase_iff]
    by_cases hb : b = a
    · subst hb
      rw [hself]
      exact iff_of_false (fun hboth => hboth.1 rfl) fun hboth => Option.some_ne_none _ hboth.2.symm
    · rw [and_iff_right hb, hother b hb]
      exact h.ready b
  · rw [hzombie]
    exact h.zombie_nodup.erase a
  · rw [hzombie, h.zombie_nodup.mem_erase_iff]
    by_cases hb : b = a
    · subst hb
      rw [hself]
      exact iff_of_false (fun hboth => hboth.1 rfl) (Option.some_ne_none _).symm
    · rw [and_iff_right hb, hother b hb]
      exact h.zombie b
  · rw [hidle, hother _ hne.symm]
    exact h.idle

theorem not_queued (h : Queues s) (hready : s.state a ≠ some .ready)
    (hzombie : s.state a ≠ some .zombie) :
    ¬s.Queued a := by
  rintro (hmem | hmem)
  · exact hready ((h.ready a).mp hmem).2
  · exact hzombie ((h.zombie a).mp hmem)

end Queues

structure Same (s t : ProcessManager) : Prop where
  links : t.links = s.links
  processes : t.processes = s.processes
  processCount : t.processCount = s.processCount
  allProcesses : t.allProcesses = s.allProcesses
  idleProcess : t.idleProcess = s.idleProcess
  current : t.current = s.current
  nextPid : t.nextPid = s.nextPid

namespace Same

theorem refl (s : ProcessManager) : Same s s := ⟨rfl, rfl, rfl, rfl, rfl, rfl, rfl⟩

theorem trans {u : ProcessManager} (h : Same s t) (h' : Same t u) : Same s u :=
  ⟨h'.links.trans h.links, h'.processes.trans h.processes, h'.processCount.trans h.processCount,
    h'.allProcesses.trans h.allProcesses, h'.idleProcess.trans h.idleProcess,
      h'.current.trans h.current,
    h'.nextPid.trans h.nextPid⟩

theorem modify (s : ProcessManager) (a : ℕ) {f : Process → Process} (hf : ∀ p, (f p).links = p.links) :
    Same s (s.modify a f) := ⟨ProcessManager.links_modify hf, rfl, rfl, rfl, rfl, rfl, rfl⟩

theorem unqueue (s : ProcessManager) (a : ℕ) : Same s (s.unqueue a) := by
  rw [ProcessManager.unqueue_eq]
  exact ⟨rfl, rfl, rfl, rfl, rfl, rfl, rfl⟩

theorem addReady (s : ProcessManager) (a : ℕ) : Same s (s.addReady a) :=
    ⟨rfl, rfl, rfl, rfl, rfl, rfl, rfl⟩

theorem live (h : Same s t) (a : ℕ) : t.process a ≠ none ↔ s.process a ≠ none := by
  rw [← ProcessManager.links_ne_none, h.links, ProcessManager.links_ne_none]

end Same

/-- The processes are registered in the table and in the list, and their `sibling` nodes are in the
`children` of live processes. -/
structure Registered (s : ProcessManager) : Prop where
  all_nodup : s.allProcesses.Nodup
  live : ∀ a, a ∈ s.allProcesses ↔ s.links a ≠ none
  pids : ∀ a l, s.links a = some l → l.pid < maxProcesses ∧ s.processes l.pid = some a ∧
    l.waitingParent = none
  table : ∀ pid < maxProcesses, ∀ a, s.processes pid = some a → ∃ l, s.links a = some l ∧ l.pid = pid
  count : s.processCount = (s.allProcesses.erase s.idleProcess).length
  children : ∀ a, (s.childrenOf a).Nodup ∧ ∀ c, c ∈ s.childrenOf a ↔ s.siblingOf c = some a
  idle : ∃ l, s.links s.idleProcess = some l ∧ l.pid = 0 ∧ l.sibling = none
  nextPid : 0 < s.nextPid ∧ s.nextPid < maxProcesses

namespace Registered

theorem congr (h : Registered s) (hlinks : t.links = s.links) (hprocesses : t.processes = s.processes)
    (hcount : t.processCount = s.processCount) (hall : t.allProcesses = s.allProcesses)
    (hidle : t.idleProcess = s.idleProcess) (hnext : 0 < t.nextPid ∧ t.nextPid < maxProcesses) :
      Registered t where
  all_nodup := by rw [hall]; exact h.all_nodup
  live := by rw [hall, hlinks]; exact h.live
  pids := by rw [hlinks, hprocesses]; exact h.pids
  table := by rw [hlinks, hprocesses]; exact h.table
  count := by rw [hcount, hall, hidle]; exact h.count
  children a := by
    unfold ProcessManager.childrenOf ProcessManager.siblingOf
    rw [hlinks]
    exact h.children a
  idle := by rw [hidle, hlinks]; exact h.idle
  nextPid := hnext

theorem process_of_mem (h : Registered s) (ha : a ∈ s.allProcesses) : ∃ p, s.process a = some p :=
  Option.ne_none_iff_exists'.mp (ProcessManager.links_ne_none.mp ((h.live a).mp ha))

theorem idle_mem (h : Registered s) : s.idleProcess ∈ s.allProcesses := by
  obtain ⟨l, hl, -⟩ := h.idle
  rw [h.live, hl]
  exact Option.some_ne_none l

theorem add (h : Registered s) {pid : ℕ} {parent : Option ℕ} (ha : s.links a = none)
    (hpid : pid < maxProcesses)
    (hfree : s.processes pid = none) (hparent : ∀ q ∈ parent, s.links q ≠ none)
    (hidleparent : parent ≠ some s.idleProcess) (hself : t.links a = some ⟨pid, parent, [], none⟩)
    (hother : ∀ b ≠ a, t.links b = (s.links b).map fun l =>
      if parent = some b then { l with children := a :: l.children } else l)
    (hprocesses : t.processes = Function.update s.processes pid (some a))
    (hcount : t.processCount = s.processCount + 1) (hall : t.allProcesses = a :: s.allProcesses)
    (hidle : t.idleProcess = s.idleProcess) (hnext : 0 < t.nextPid ∧ t.nextPid < maxProcesses) :
    Registered t := by
  have hout : a ∉ s.allProcesses := fun hmem => (h.live a).mp hmem ha
  have hne : s.idleProcess ≠ a := ne_of_mem_of_not_mem h.idle_mem hout
  have hnone : s.siblingOf a = none := by rw [ProcessManager.siblingOf, ha]; rfl
  have hempty : s.childrenOf a = [] := by rw [ProcessManager.childrenOf, ha]; rfl
  have hsibling : ∀ c ≠ a, t.siblingOf c = s.siblingOf c := by
    intro c hc
    rw [ProcessManager.siblingOf, hother c hc, ProcessManager.siblingOf]
    cases s.links c with
    | none => rfl
    | some l =>
      dsimp only [Option.map_some, Option.bind_some]
      split <;> rfl
  have hselfsibling : t.siblingOf a = parent := by rw [ProcessManager.siblingOf, hself]; rfl
  refine ⟨?_, fun b => ?_, fun b l hl => ?_, fun i hi b hb => ?_, ?_, fun b => ?_, ?_, hnext⟩
  · rw [hall]
    exact List.nodup_cons.mpr ⟨hout, h.all_nodup⟩
  · rw [hall, List.mem_cons]
    by_cases hb : b = a
    · subst hb
      rw [hself]
      exact iff_of_true (.inl rfl) (Option.some_ne_none _)
    · rw [or_iff_right hb, hother b hb, h.live, Ne, Ne, Option.map_eq_none_iff]
  · rw [hprocesses]
    by_cases hb : b = a
    · subst hb
      obtain rfl := Option.some.inj (hself.symm.trans hl)
      exact ⟨hpid, Function.update_self .., rfl⟩
    · rw [hother b hb, Option.map_eq_some_iff] at hl
      obtain ⟨k, hk, rfl⟩ := hl
      obtain ⟨hlt, hentry, hwaiting⟩ := h.pids b k hk
      have hneq : k.pid ≠ pid := by
        intro heq
        rw [heq, hfree] at hentry
        exact Option.some_ne_none b hentry.symm
      split
      · exact ⟨hlt, (Function.update_of_ne hneq ..).trans hentry, hwaiting⟩
      · exact ⟨hlt, (Function.update_of_ne hneq ..).trans hentry, hwaiting⟩
  · rw [hprocesses] at hb
    by_cases heq : i = pid
    · subst heq
      rw [Function.update_self] at hb
      obtain rfl := Option.some.inj hb
      exact ⟨_, hself, rfl⟩
    · rw [Function.update_of_ne heq] at hb
      obtain ⟨l, hl, hpid⟩ := h.table i hi b hb
      have hba : b ≠ a := by
        rintro rfl
        exact Option.some_ne_none l (hl.symm.trans ha)
      refine ⟨_, by rw [hother b hba, hl]; rfl, ?_⟩
      split <;> exact hpid
  · rw [hcount, hall, hidle, h.count, List.erase_cons_tail (by simpa using hne.symm), List.length_cons]
    push_cast
    rfl
  · by_cases hb : b = a
    · subst hb
      have hkids : t.childrenOf b = [] := by rw [ProcessManager.childrenOf, hself]; rfl
      rw [hkids]
      refine ⟨List.nodup_nil, fun c => iff_of_false List.not_mem_nil fun hc => ?_⟩
      by_cases hcb : c = b
      · subst hcb
        rw [hselfsibling] at hc
        exact hparent c hc ha
      · rw [hsibling c hcb] at hc
        have hmem := ((h.children b).2 c).mpr hc
        rw [hempty] at hmem
        exact List.not_mem_nil hmem
    · obtain ⟨hnodup, hmem⟩ := h.children b
      have hfresh : a ∉ s.childrenOf b := by
        rw [hmem, hnone]
        exact (Option.some_ne_none b).symm
      by_cases hq : parent = some b
      · have hkids : t.childrenOf b = a :: s.childrenOf b := by
          obtain ⟨l, hl⟩ := Option.ne_none_iff_exists'.mp (hparent b hq)
          rw [ProcessManager.childrenOf, hother b hb, ProcessManager.childrenOf, hl,
            Option.map_some, if_pos hq]
          rfl
        rw [hkids]
        refine ⟨List.nodup_cons.mpr ⟨hfresh, hnodup⟩, fun c => ?_⟩
        rw [List.mem_cons]
        by_cases hc : c = a
        · subst hc
          exact iff_of_true (.inl rfl) (hselfsibling.trans hq)
        · rw [or_iff_right hc, hsibling c hc]
          exact hmem c
      · have hkids : t.childrenOf b = s.childrenOf b := by
          rw [ProcessManager.childrenOf, hother b hb, ProcessManager.childrenOf]
          cases s.links b with
          | none => rfl
          | some l => rw [Option.map_some, if_neg hq]
        rw [hkids]
        refine ⟨hnodup, fun c => ?_⟩
        by_cases hc : c = a
        · subst hc
          rw [hselfsibling]
          exact iff_of_false hfresh hq
        · rw [hsibling c hc]
          exact hmem c
  · obtain ⟨l, hl, hpid, hsib⟩ := h.idle
    rw [hidle, hother _ hne, hl, Option.map_some, if_neg hidleparent]
    exact ⟨l, rfl, hpid, hsib⟩

theorem remove (h : Registered s) {l : Links} (ha : s.links a = some l) (hchildren : l.children = [])
    (hidlene : a ≠ s.idleProcess) (hself : t.links a = none)
    (hother : ∀ b ≠ a, t.links b = (s.links b).map fun k => { k with children := k.children.erase a })
    (hprocesses : t.processes = Function.update s.processes l.pid none)
    (hcount : t.processCount = s.processCount - 1) (hall : t.allProcesses = s.allProcesses.erase a)
    (hidle : t.idleProcess = s.idleProcess) (hnext : t.nextPid = s.nextPid) : Registered t := by
  have hmem : a ∈ s.allProcesses := (h.live a).mpr (by rw [ha]; exact Option.some_ne_none l)
  have hempty : s.childrenOf a = [] := by rw [ProcessManager.childrenOf, ha]; exact hchildren
  have hsibling : ∀ c ≠ a, t.siblingOf c = s.siblingOf c := by
    intro c hc
    rw [ProcessManager.siblingOf, hother c hc, ProcessManager.siblingOf]
    cases s.links c <;> rfl
  have hselfsibling : t.siblingOf a = none := by rw [ProcessManager.siblingOf, hself]; rfl
  refine ⟨?_, fun b => ?_, fun b k hk => ?_, fun i hi b hb => ?_, ?_, fun b => ?_, ?_, ?_⟩
  · rw [hall]
    exact h.all_nodup.erase a
  · rw [hall, h.all_nodup.mem_erase_iff]
    by_cases hb : b = a
    · subst hb
      exact iff_of_false (fun hboth => hboth.1 rfl) fun hsome => hsome hself
    · rw [and_iff_right hb, hother b hb, h.live, Ne, Ne, Option.map_eq_none_iff]
  · have hb : b ≠ a := by
      rintro rfl
      exact Option.some_ne_none k (hk.symm.trans hself)
    rw [hother b hb, Option.map_eq_some_iff] at hk
    obtain ⟨k, hk, rfl⟩ := hk
    obtain ⟨hlt, hentry, hwaiting⟩ := h.pids b k hk
    have hne : k.pid ≠ l.pid := by
      intro heq
      have hown := (h.pids a l ha).2.1
      rw [← heq, hentry] at hown
      exact hb (Option.some.inj hown)
    rw [hprocesses]
    exact ⟨hlt, (Function.update_of_ne hne ..).trans hentry, hwaiting⟩
  · rw [hprocesses] at hb
    by_cases heq : i = l.pid
    · rw [heq, Function.update_self] at hb
      exact absurd hb.symm (Option.some_ne_none b)
    · rw [Function.update_of_ne heq] at hb
      obtain ⟨k, hk, hpid⟩ := h.table i hi b hb
      have hba : b ≠ a := by
        rintro rfl
        obtain rfl := Option.some.inj (ha.symm.trans hk)
        exact heq hpid.symm
      exact ⟨{ k with children := k.children.erase a }, by rw [hother b hba, hk]; rfl, hpid⟩
  · have hlater : a ∈ s.allProcesses.erase s.idleProcess := (List.mem_erase_of_ne hidlene).mpr hmem
    have hpos := List.length_pos_of_mem hlater
    rw [hcount, hall, hidle, h.count, List.erase_comm, List.length_erase_of_mem hlater,
      Nat.cast_sub hpos]
    rfl
  · obtain ⟨hnodup, hkids⟩ := h.children b
    by_cases hb : b = a
    · subst hb
      have hgone : t.childrenOf b = [] := by rw [ProcessManager.childrenOf, hself]; rfl
      rw [hgone]
      refine ⟨List.nodup_nil, fun c => iff_of_false List.not_mem_nil fun hc => ?_⟩
      by_cases hcb : c = b
      · subst hcb
        rw [hselfsibling] at hc
        exact Option.some_ne_none c hc.symm
      · rw [hsibling c hcb, ← hkids c, hempty] at hc
        exact List.not_mem_nil hc
    · have herase : t.childrenOf b = (s.childrenOf b).erase a := by
        rw [ProcessManager.childrenOf, hother b hb, ProcessManager.childrenOf]
        cases s.links b <;> rfl
      rw [herase]
      refine ⟨hnodup.erase a, fun c => ?_⟩
      rw [hnodup.mem_erase_iff, hkids c]
      by_cases hc : c = a
      · subst hc
        rw [hselfsibling]
        exact iff_of_false (fun hboth => hboth.1 rfl) (Option.some_ne_none b).symm
      · rw [hsibling c hc, and_iff_right hc]
  · obtain ⟨k, hk, hpid, hsib⟩ := h.idle
    rw [hidle, hother _ hidlene.symm, hk, Option.map_some]
    exact ⟨{ k with children := k.children.erase a }, rfl, hpid, hsib⟩
  · rw [hnext]
    exact h.nextPid

theorem same (h : Registered s) (hsame : Same s t) : Registered t :=
  h.congr hsame.links hsame.processes hsame.processCount hsame.allProcesses hsame.idleProcess
    (by rw [hsame.nextPid]; exact h.nextPid)

end Registered

end GcAos.Proc.Modern
