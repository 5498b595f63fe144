import GcAos.Proc.ModernQueues

/-! The queues of the process manager over every sequence of calls. -/

namespace GcAos.Proc.Modern
open Lib

variable {s t : ProcessManager} {a : ℕ} {p : Process} {x : ProcessState}

structure QueuesOk (s : ProcessManager) : Prop where
  ready_nodup : s.readyQueue.Nodup
  ready : ∀ a, a ∈ s.readyQueue ↔ a ≠ s.idleProcess ∧ ∃ p, s.process a = some p ∧ p.state = .ready
  zombie_nodup : s.zombieQueue.Nodup
  zombie : ∀ a, a ∈ s.zombieQueue ↔ ∃ p, s.process a = some p ∧ p.state = .zombie
  all_nodup : s.allProcesses.Nodup
  live : ∀ a, a ∈ s.allProcesses ↔ s.process a ≠ none
  table : ∀ a, a ∈ s.allProcesses ↔ ∃ pid < maxProcesses, s.processes pid = some a
  count : s.processCount = (s.allProcesses.erase s.idleProcess).length
  freed : ∀ a, s.process a = none → a ∉ s.readyQueue ∧ a ∉ s.zombieQueue ∧
    ∀ b p, s.process b = some p → a ∉ p.children ∧ p.sibling ≠ some a

theorem unqueue_modify (s : ProcessManager) (a : ℕ) (f : Process → Process) :
    ((s.modify a f).unqueue a).state = (s.modify a f).state ∧
      ((s.modify a f).unqueue a).readyQueue = s.readyQueue.erase a ∧
      ((s.modify a f).unqueue a).zombieQueue = s.zombieQueue.erase a := by
  rw [ProcessManager.unqueue_eq]
  exact ⟨rfl, rfl, rfl⟩

/-- The invariant of runs. The current process is running, unless it is the idle process. -/
structure ProcInv (s : ProcessManager) : Prop where
  queues : Queues s
  registered : Registered s
  current : s.process s.current ≠ none
  running : s.current = s.idleProcess ∨ s.state s.current = some .running

namespace ProcInv

theorem requeueCurrent (hqueues : Queues s) (hp : s.process s.current = some p) :
    Queues (s.requeueCurrent p) ∧ Same s (s.requeueCurrent p) := by
  unfold ProcessManager.requeueCurrent
  split
  · rename_i hcond
    obtain ⟨hstate, hready, hzombie⟩ := unqueue_modify s s.current fun p => { p with state := .ready }
    refine ⟨hqueues.change (a := s.current) (x := .ready) ?_ ?_ ?_ ?_ fun heq => absurd heq hcond.2, ?_⟩
    · exact hstate.trans (ProcessManager.state_modify hp)
    · rw [if_pos ⟨rfl, hcond.2⟩, ← hready]
      rfl
    · rw [if_neg ProcessState.noConfusion]
      exact hzombie
    · rw [ProcessManager.unqueue_eq]
      rfl
    · exact ((Same.modify s s.current (by exact fun _ => rfl)).trans (Same.unqueue _ _)).trans
        (Same.addReady _ _)
  · exact ⟨hqueues, .refl s⟩

theorem switchContext (hqueues : Queues s) (hregistered : Registered s) {next : ℕ}
    (hrunning : s.state next = some .running) (now : UInt64) : ProcInv (s.switchContext next now) := by
  have hlive : s.process next ≠ none := fun hnone => by
    rw [ProcessManager.state, hnone] at hrunning
    exact Option.some_ne_none _ hrunning.symm
  unfold ProcessManager.switchContext
  split
  · rename_i heq
    rw [heq] at hlive hrunning
    exact ⟨hqueues, hregistered, hlive, .inr hrunning⟩
  · dsimp only
    have hfrom : ∀ v : ProcessManager, (v.modify s.current
        fun p => { p with cpu := -1, switchCount := p.switchCount + 1 }).state = v.state ∧
        (v.modify s.current fun p => { p with cpu := -1, switchCount := p.switchCount + 1 }).links =
          v.links :=
      fun v => ⟨ProcessManager.state_modify_same fun _ => rfl, ProcessManager.links_modify fun _ => rfl⟩
    have hto : ∀ v : ProcessManager, (v.modify next fun p =>
        { p with cpu := 0, execStart := now }).state = v.state ∧
        (v.modify next fun p => { p with cpu := 0, execStart := now }).links = v.links :=
      fun v => ⟨ProcessManager.state_modify_same fun _ => rfl, ProcessManager.links_modify fun _ => rfl⟩
    have hstate := (hto _).1.trans (hfrom { s with current := next }).1
    have hlinks := (hto _).2.trans (hfrom { s with current := next }).2
    refine ⟨hqueues.congr hstate rfl rfl rfl,
      hregistered.congr hlinks rfl rfl rfl rfl hregistered.nextPid,
      ProcessManager.links_ne_none.mp ?_, .inr ?_⟩
    · rw [hlinks]
      exact ProcessManager.links_ne_none.mpr hlive
    · rw [hstate]
      exact hrunning

theorem next_live (hqueues : Queues s) (hregistered : Registered s) :
    s.process (s.readyQueue.head?.getD s.idleProcess) ≠ none := by
  cases hhead : s.readyQueue.head? with
  | none =>
    obtain ⟨q, hq⟩ := hregistered.process_of_mem hregistered.idle_mem
    rw [Option.getD_none, hq]
    exact Option.some_ne_none q
  | some a =>
    have hready := ((hqueues.ready a).mp (List.mem_of_head? hhead)).2
    rw [Option.getD_some]
    intro hnone
    rw [ProcessManager.state, hnone] at hready
    exact Option.some_ne_none _ hready.symm

theorem processSchedule (hqueues : Queues s) (hregistered : Registered s)
    (hcurrent : s.process s.current ≠ none)
    (now : UInt64) : ∃ t, s.processSchedule now = some t ∧ ProcInv t := by
  obtain ⟨p, hp⟩ := Option.ne_none_iff_exists'.mp hcurrent
  obtain ⟨hqueues', hsame⟩ := requeueCurrent hqueues hp
  have hnext := next_live hqueues hregistered
  generalize hn : s.readyQueue.head?.getD s.idleProcess = next at hnext
  obtain ⟨q, hq⟩ := Option.ne_none_iff_exists'.mp ((hsame.live next).mpr hnext)
  have hrun : s.processSchedule now = some ((((s.requeueCurrent p).modify next
      fun p => { p with state := .running }).unqueue next).switchContext next now) := by
    rw [ProcessManager.processSchedule, hp]
    dsimp only [Option.bind_eq_bind, Option.bind_some]
    rw [hn, hq]
    rfl
  obtain ⟨hstate, hready, hzombie⟩ :=
    unqueue_modify (s.requeueCurrent p) next fun p => { p with state := .running }
  have hsame' := (Same.modify (s.requeueCurrent p) next (f := fun p => { p with state := .running })
    fun _ => rfl).trans (Same.unqueue _ next)
  have hstate' := hstate.trans (ProcessManager.state_modify hq)
  refine ⟨_, hrun, switchContext ?_ (hregistered.same (hsame.trans hsame')) ?_ now⟩
  · exact hqueues'.change hstate'
      (by rw [hready, if_neg fun hand => ProcessState.noConfusion hand.1, List.append_nil])
      (by rw [hzombie, if_neg ProcessState.noConfusion, List.nil_append]) hsame'.idleProcess
      fun _ => .inr (.inl rfl)
  · rw [hstate', Function.update_self]

theorem reschedule (hqueues : Queues s) (hregistered : Registered s)
    (hcurrent : s.process s.current ≠ none)
    (hrunning : a ≠ s.current → s.current = s.idleProcess ∨ s.state s.current = some .running)
      (now : UInt64) :
    ∃ t, s.reschedule a now = some t ∧ ProcInv t := by
  unfold ProcessManager.reschedule
  split
  · exact processSchedule hqueues hregistered hcurrent now
  · rename_i hne
    exact ⟨s, rfl, hqueues, hregistered, hcurrent, hrunning hne⟩

theorem running_of_ne (h : ProcInv s) (hsame : Same s t)
    (hstate : t.state = Function.update s.state a (some x))
    (hne : a ≠ t.current) : t.current = t.idleProcess ∨ t.state t.current = some .running := by
  rw [hsame.current] at hne ⊢
  rw [hsame.idleProcess, hstate, Function.update_of_ne hne.symm]
  exact h.running

theorem stop (h : ProcInv s) (ha : s.process a ≠ none) {f : Process → Process}
    (hlinks : ∀ p, (f p).links = p.links)
    (hx : x = .sleeping ∨ x = .blocked) (hf : ∀ p, (f p).state = x) (now : UInt64) :
    ∃ t, ((s.modify a f).unqueue a).reschedule a now = some t ∧ ProcInv t := by
  obtain ⟨p, hp⟩ := Option.ne_none_iff_exists'.mp ha
  obtain ⟨hstate, hready, hzombie⟩ := unqueue_modify s a f
  have hsame := (Same.modify s a hlinks).trans (Same.unqueue _ a)
  have hstate' : ((s.modify a f).unqueue a).state = Function.update s.state a (some x) := by
    rw [hstate, ProcessManager.state_modify hp, hf]
  have hnotready : x ≠ .ready := by
    rcases hx with rfl | rfl <;> exact ProcessState.noConfusion
  have hnotzombie : x ≠ .zombie := by
    rcases hx with rfl | rfl <;> exact ProcessState.noConfusion
  refine reschedule (h.queues.change hstate' ?_ ?_ hsame.idleProcess fun _ => .inr (.inr hx))
    (h.registered.same hsame) ?_ (h.running_of_ne hsame hstate') now
  · rw [hready, if_neg fun hand => hnotready hand.1, List.append_nil]
  · rw [hzombie, if_neg hnotzombie, List.nil_append]
  · rw [hsame.current]
    exact (hsame.live _).mpr h.current

theorem processSleep (h : ProcInv s) {proc : Option ℕ} (hproc : ∀ a ∈ proc, s.process a ≠ none)
    (nanoseconds now : UInt64) : ∃ t, s.processSleep proc nanoseconds now = some t ∧ ProcInv t := by
  have ha : s.process (proc.getD s.current) ≠ none := by
    cases proc with
    | none => exact h.current
    | some a => exact hproc a rfl
  obtain ⟨t, ht, hinv⟩ := h.stop ha (f := fun p =>
      { p with state := .sleeping, sleepUntil := now + nanoseconds })
    (fun _ => rfl) (.inl rfl) (fun _ => rfl) now
  obtain ⟨p, hp⟩ := Option.ne_none_iff_exists'.mp ha
  refine ⟨t, ?_, hinv⟩
  rw [ProcessManager.processSleep]
  dsimp only [Option.bind_eq_bind]
  rw [hp]
  exact ht

theorem processBlock (h : ProcInv s) {proc : Option ℕ} (hproc : ∀ a ∈ proc, s.process a ≠ none)
    (obj : ℕ)
    (now : UInt64) : ∃ t, s.processBlock proc obj now = some t ∧ ProcInv t := by
  have ha : s.process (proc.getD s.current) ≠ none := by
    cases proc with
    | none => exact h.current
    | some a => exact hproc a rfl
  obtain ⟨t, ht, hinv⟩ := h.stop ha (f := fun p => { p with state := .blocked, waitObj := obj })
    (fun _ => rfl) (.inr rfl) (fun _ => rfl) now
  obtain ⟨p, hp⟩ := Option.ne_none_iff_exists'.mp ha
  refine ⟨t, ?_, hinv⟩
  rw [ProcessManager.processBlock]
  dsimp only [Option.bind_eq_bind]
  rw [hp]
  exact ht

theorem wakeUp (h : ProcInv s) (hp : s.process a = some p) {f : Process → Process}
    (hlinks : ∀ p, (f p).links = p.links) (hf : ∀ p, (f p).state = .ready) (hidle : a ≠ s.idleProcess)
    (hready : p.state ≠ .ready) (hrunning : p.state ≠ .running) (hzombie : p.state ≠ .zombie) :
    ¬(s.modify a f).Queued a ∧ ProcInv ((s.modify a f).addReady a) := by
  have hstate : s.state a = some p.state := by rw [ProcessManager.state, hp]; rfl
  have hnot : ¬s.Queued a := by
    refine h.queues.not_queued ?_ ?_
    · rw [hstate]
      exact fun heq => hready (Option.some.inj heq)
    · rw [hstate]
      exact fun heq => hzombie (Option.some.inj heq)
  have hne : a ≠ s.current := by
    intro heq
    rcases h.running with hcur | hcur
    · exact hidle (heq.trans hcur)
    · rw [← heq, hstate] at hcur
      exact hrunning (Option.some.inj hcur)
  obtain ⟨hnotready, hnotzombie⟩ := not_or.mp hnot
  have hsame := (Same.modify s a hlinks).trans (Same.addReady _ a)
  have hstate' : ((s.modify a f).addReady a).state = Function.update s.state a (some .ready) := by
    refine (ProcessManager.state_modify hp).trans ?_
    rw [hf]
  refine ⟨hnot, h.queues.change hstate' ?_ ?_ rfl fun heq => absurd heq hidle, h.registered.same hsame,
    (hsame.live _).mpr h.current, h.running_of_ne hsame hstate' hne⟩
  · rw [if_pos ⟨rfl, hidle⟩, List.erase_of_not_mem hnotready]
    rfl
  · rw [if_neg ProcessState.noConfusion, List.erase_of_not_mem hnotzombie]
    rfl

theorem idle_state (h : ProcInv s) (hp : s.process s.idleProcess = some p) : IdleState p.state := by
  obtain ⟨x, hx, hidle⟩ := h.queues.idle
  rw [ProcessManager.state, hp] at hx
  rwa [Option.some.inj hx]

theorem processStart (h : ProcInv s) {proc : Option ℕ} (hproc : ∀ a ∈ proc, s.process a ≠ none) :
    ∃ t ret, s.processStart proc = some (t, ret) ∧ ProcInv t := by
  cases proc with
  | none => exact ⟨s, -1, rfl, h⟩
  | some a =>
    obtain ⟨p, hp⟩ := Option.ne_none_iff_exists'.mp (hproc a rfl)
    unfold ProcessManager.processStart
    dsimp only [Option.bind_eq_bind]
    rw [hp, Option.bind_some]
    split
    · exact ⟨s, -2, rfl, h⟩
    · rename_i hnew
      have hnew : p.state = .new := not_not.mp hnew
      have hidle : a ≠ s.idleProcess := by
        rintro rfl
        have hstate := h.idle_state hp
        rw [hnew] at hstate
        rcases hstate with hx | hx | hx | hx <;> exact ProcessState.noConfusion hx
      have hwoken := @wakeUp s a p h hp (fun p => { p with state := .ready }) (fun _ => rfl)
          (fun _ => rfl) hidle
        (by rw [hnew]; exact ProcessState.noConfusion) (by rw [hnew]; exact ProcessState.noConfusion)
        (by rw [hnew]; exact ProcessState.noConfusion)
      exact ⟨_, 0, rfl, hwoken.2⟩

theorem processWake (h : ProcInv s) {proc : Option ℕ} (hproc : ∀ a ∈ proc, s.process a ≠ none)
    (hsafe : ProcessStep.Safe s (.processWake proc)) : ∃ t ret,
      s.processWake proc = some (t, ret) ∧ ProcInv t := by
  cases proc with
  | none => exact ⟨s, -1, rfl, h⟩
  | some a =>
    obtain ⟨p, hp⟩ := Option.ne_none_iff_exists'.mp (hproc a rfl)
    obtain ⟨hzombie, hsafeidle⟩ := hsafe a rfl p hp
    unfold ProcessManager.processWake
    dsimp only [Option.bind_eq_bind]
    rw [hp, Option.bind_some]
    split
    · exact ⟨s, 1, rfl, h⟩
    · rename_i hnot
      obtain ⟨hready, hrunning⟩ := not_or.mp hnot
      have hidle : a ≠ s.idleProcess := by
        rintro rfl
        obtain ⟨hsleeping, hblocked⟩ := hsafeidle rfl
        rcases h.idle_state hp with hx | hx | hx | hx
        · exact hready hx
        · exact hrunning hx
        · exact hsleeping hx
        · exact hblocked hx
      have hwoken := @wakeUp s a p h hp
        (fun p => { p with state := .ready, sleepUntil := 0, wakeCount := p.wakeCount + 1 })
        (fun _ => rfl) (fun _ => rfl) hidle hready hrunning hzombie
      rw [if_neg hwoken.1]
      exact ⟨_, 0, rfl, hwoken.2⟩

theorem unblock (h : ProcInv s) {obj : ℕ} (ha : s.process a ≠ none)
    (hidle : ∀ p ∈ s.process s.idleProcess, ¬(p.state = .blocked ∧ p.waitObj = obj)) :
    ∃ t, ProcessManager.unblock obj s a = some t ∧ ProcInv t ∧ Same s t ∧
      t.process s.idleProcess = s.process s.idleProcess := by
  obtain ⟨p, hp⟩ := Option.ne_none_iff_exists'.mp ha
  unfold ProcessManager.unblock
  dsimp only [Option.bind_eq_bind]
  rw [hp, Option.bind_some]
  split
  · rename_i hblocked
    have hne : a ≠ s.idleProcess := by
      rintro rfl
      exact hidle p hp hblocked
    have hwoken := @wakeUp s a p h hp (fun p => { p with waitObj := 0, state := .ready })
      (fun _ => rfl) (fun _ => rfl) hne (by rw [hblocked.1]; exact ProcessState.noConfusion)
      (by rw [hblocked.1]; exact ProcessState.noConfusion)
        (by rw [hblocked.1]; exact ProcessState.noConfusion)
    rw [if_neg hwoken.1]
    refine ⟨_, rfl, hwoken.2, (Same.modify s a (by exact fun _ => rfl)).trans (Same.addReady _ a), ?_⟩
    exact Function.update_of_ne hne.symm ..
  · exact ⟨s, rfl, h, .refl s, rfl⟩

theorem processUnblockAll (h : ProcInv s) {obj : ℕ}
    (hsafe : ProcessStep.Safe s (.processUnblockAll obj)) :
    ∃ t, s.processUnblockAll obj = some t ∧ ProcInv t := by
  have hloop : ∀ (l : List ℕ) (u : ProcessManager), (∀ a ∈ l, u.process a ≠ none) → ProcInv u →
      (∀ p ∈ u.process u.idleProcess, ¬(p.state = .blocked ∧ p.waitObj = obj)) →
      ∃ t, l.foldlM (ProcessManager.unblock obj) u = some t ∧ ProcInv t := by
    intro l
    induction l with
    | nil => exact fun u _ hu _ => ⟨u, rfl, hu⟩
    | cons a l ih =>
      intro u hlive hu hidle
      obtain ⟨v, hv, hinv, hsame, hkeep⟩ := hu.unblock (hlive a List.mem_cons_self) hidle
      obtain ⟨t, ht, htinv⟩ := ih v (fun b hb =>
          (hsame.live b).mpr (hlive b (List.mem_cons_of_mem a hb))) hinv
        (by rw [hsame.idleProcess, hkeep]; exact hidle)
      refine ⟨t, ?_, htinv⟩
      rw [List.foldlM_cons, hv]
      exact ht
  exact hloop _ s (fun a ha => ProcessManager.links_ne_none.mp ((h.registered.live a).mp ha)) h hsafe

theorem orphan (l : List ℕ) (s : ProcessManager) :
    let t := l.foldl (fun s child => s.modify child fun p => { p with parent := none }) s
    Same s t ∧ t.state = s.state ∧ t.readyQueue = s.readyQueue ∧ t.zombieQueue = s.zombieQueue := by
  induction l generalizing s with
  | nil => exact ⟨.refl s, rfl, rfl, rfl⟩
  | cons c l ih =>
    obtain ⟨hsame, hstate, hready, hzombie⟩ := ih (s.modify c fun p => { p with parent := none })
    refine ⟨(Same.modify s c (by exact fun _ => rfl)).trans hsame, hstate.trans ?_, hready, hzombie⟩
    exact ProcessManager.state_modify_same fun _ => rfl

theorem processKill (h : ProcInv s) (pid exitCode : ℤ) (now : UInt64) :
    ∃ t ret, s.processKill pid exitCode now = some (t, ret) ∧ ProcInv t := by
  unfold ProcessManager.processKill
  cases hget : s.processGet pid with
  | none => exact ⟨s, -1, rfl, h⟩
  | some a =>
    dsimp only
    by_cases hzero : pid = 0
    · rw [if_pos hzero]
      exact ⟨s, -2, rfl, h⟩
    · rw [if_neg hzero]
      obtain ⟨hrange, hentry⟩ : (0 ≤ pid ∧ pid < maxProcesses) ∧ s.processes pid.toNat = some a := by
        unfold ProcessManager.processGet at hget
        split at hget
        · exact absurd hget.symm (Option.some_ne_none a)
        · rename_i hrange
          exact ⟨by omega, hget⟩
      obtain ⟨l, hl, hpid⟩ := h.registered.table pid.toNat (by omega) a hentry
      obtain ⟨p, hp, rfl⟩ := Option.map_eq_some_iff.mp hl
      have hidle : a ≠ s.idleProcess := by
        rintro rfl
        obtain ⟨k, hk, hkpid, -⟩ := h.registered.idle
        rw [hl] at hk
        rw [← Option.some.inj hk, hpid] at hkpid
        omega
      have hwaiting : p.waitingParent = none := (h.registered.pids a _ hl).2.2
      dsimp only [Option.bind_eq_bind]
      rw [hp, Option.bind_some, hwaiting, if_neg fun hne => hne rfl]
      obtain ⟨hstate, hready, hzombie⟩ :=
        unqueue_modify s a fun p => { p with exitCode := exitCode, state := .zombie }
      obtain ⟨hsame, hstate', hready', hzombie'⟩ :=
        orphan p.children ((s.modify a fun p =>
          { p with exitCode := exitCode, state := .zombie }).unqueue a)
      generalize p.children.foldl _ _ = u at *
      have hall : Same s { u with zombieQueue := a :: u.zombieQueue } :=
        (((Same.modify s a (by exact fun _ => rfl)).trans (Same.unqueue _ a)).trans hsame).trans
          ⟨rfl, rfl, rfl, rfl, rfl, rfl, rfl⟩
      have hnew : ProcessManager.state { u with zombieQueue := a :: u.zombieQueue } =
          Function.update s.state a (some .zombie) :=
        (hstate'.trans hstate).trans (ProcessManager.state_modify hp)
      have hqueues : Queues { u with zombieQueue := a :: u.zombieQueue } := by
        refine h.queues.change hnew ?_ ?_ hall.idleProcess fun heq => absurd heq hidle
        · rw [if_neg fun hand => ProcessState.noConfusion hand.1, List.append_nil]
          exact hready'.trans hready
        · rw [if_pos rfl]
          exact congrArg (List.cons a) (hzombie'.trans hzombie)
      obtain ⟨t, ht, hinv⟩ := reschedule (a := a) hqueues (h.registered.same hall)
        (by rw [hall.current]; exact (hall.live _).mpr h.current) (h.running_of_ne hall hnew) now
      rw [ht]
      exact ⟨t, 0, rfl, hinv⟩

theorem processDestroy (h : ProcInv s) {proc : Option ℕ} (hproc : ∀ a ∈ proc, s.process a ≠ none)
    (hsafe : ProcessStep.Safe s (.processDestroy proc)) : ∃ t,
      s.processDestroy proc = some t ∧ ProcInv t := by
  cases proc with
  | none => exact ⟨s, rfl, h⟩
  | some a =>
    obtain ⟨p, hp⟩ := Option.ne_none_iff_exists'.mp (hproc a rfl)
    obtain ⟨hsibling, hchildren, hcurrent⟩ := hsafe a rfl p hp
    obtain ⟨parent, hparent⟩ := Option.ne_none_iff_exists'.mp hsibling
    have hl : s.links a = some p.links := by rw [ProcessManager.links, hp]; rfl
    have hsib : s.siblingOf a = some parent := by rw [ProcessManager.siblingOf, hl]; exact hparent
    have hmem := ((h.registered.children parent).2 a).mpr hsib
    have hempty : s.childrenOf a = [] := by rw [ProcessManager.childrenOf, hl]; exact hchildren
    have hpa : parent ≠ a := by
      rintro rfl
      rw [hempty] at hmem
      exact List.not_mem_nil hmem
    have hidle : a ≠ s.idleProcess := by
      rintro rfl
      obtain ⟨k, hk, -, hnone⟩ := h.registered.idle
      rw [hl] at hk
      rw [← Option.some.inj hk] at hnone
      exact hsibling hnone
    obtain ⟨q, hq⟩ : ∃ q, s.process parent = some q := by
      refine Option.ne_none_iff_exists'.mp fun hnone => ?_
      rw [ProcessManager.childrenOf, ProcessManager.links, hnone] at hmem
      exact List.not_mem_nil hmem
    unfold ProcessManager.processDestroy
    dsimp only [Option.bind_eq_bind]
    rw [hp, Option.bind_some, hparent, Option.bind_some, hq, Option.bind_some,
      ProcessManager.unqueue_eq]
    refine ⟨_, rfl, ?_⟩
    have hmodify : ∀ b, (s.modify parent fun q => { q with children := q.children.erase a }).links b =
        (s.links b).map fun k => { k with children := k.children.erase a } := by
      intro b
      rw [ProcessManager.links, ProcessManager.modify_of_some hq]
      by_cases hb : b = parent
      · subst hb
        rw [Function.update_self, ProcessManager.links, hq]
        rfl
      · rw [Function.update_of_ne hb, ProcessManager.links]
        cases hb' : s.process b with
        | none => rfl
        | some r =>
          have hout : a ∉ r.children := by
            intro hin
            have hown := ((h.registered.children b).2 a).mp (by
              rw [ProcessManager.childrenOf, ProcessManager.links, hb']
              exact hin)
            exact hb (Option.some.inj (hown.symm.trans hsib))
          rw [Option.map_some, Option.map_some]
          dsimp only [Process.links]
          rw [List.erase_of_not_mem hout]
    have hstates : (s.modify parent fun q => { q with children := q.children.erase a }).state =
        s.state :=
      ProcessManager.state_modify_same fun _ => rfl
    have hgone : ∀ g : ℕ → Option Process, Function.update g a none a = none := fun g =>
        Function.update_self ..
    have hkept : ∀ (g : ℕ → Option Process) (b : ℕ), b ≠ a → Function.update g a none b = g b :=
      fun g b hb => Function.update_of_ne hb ..
    refine ⟨h.queues.remove (a := a) (funext fun b => ?_) rfl rfl rfl hidle,
      h.registered.remove hl hchildren hidle ?_ (fun b hb => ?_) rfl rfl rfl rfl rfl, ?_, ?_⟩
    · by_cases hb : b = a
      · subst hb
        rw [Function.update_self]
        exact congrArg (Option.map Process.state) (hgone _)
      · rw [Function.update_of_ne hb]
        refine (congrArg (Option.map Process.state) (hkept _ b hb)).trans ?_
        exact congrFun hstates b
    · exact congrArg (Option.map Process.links) (hgone _)
    · refine (congrArg (Option.map Process.links) (hkept _ b hb)).trans ?_
      exact hmodify b
    · refine ne_of_eq_of_ne (hkept _ _ hcurrent.symm) ?_
      exact ProcessManager.modify_process_ne_none.mpr h.current
    · refine h.running.imp id fun hrunning => ?_
      refine (congrArg (Option.map Process.state) (hkept _ _ hcurrent.symm)).trans ?_
      exact (congrFun hstates _).trans hrunning

theorem pidAfter_spec (pid : ℕ) : 0 < ProcessManager.pidAfter pid ∧
    ProcessManager.pidAfter pid < maxProcesses := by
  have hmod : (pid + 1) % maxProcesses < maxProcesses := Nat.mod_lt _ (by decide)
  unfold ProcessManager.pidAfter
  dsimp only
  split
  · exact ⟨Nat.one_pos, by decide⟩
  · omega

theorem findPid_spec {processes : ℕ → Option ℕ} {n pid r : ℕ}
    (hr : ProcessManager.findPid processes n pid = some r) (hpid : 0 < pid ∧ pid < maxProcesses) :
    (0 < r ∧ r < maxProcesses) ∧ processes r = none := by
  induction n generalizing pid with
  | zero => exact absurd hr.symm (Option.some_ne_none r)
  | succ n ih =>
    rw [ProcessManager.findPid] at hr
    split at hr
    · rename_i hfree
      obtain rfl := Option.some.inj hr
      exact ⟨hpid, hfree⟩
    · exact ih hr (pidAfter_spec pid)


theorem withPid (h : ProcInv s) (pid : ℕ) : ProcInv { s with nextPid := ProcessManager.pidAfter pid } :=
  ⟨h.queues.congr rfl rfl rfl rfl, h.registered.congr rfl rfl rfl rfl rfl (pidAfter_spec pid),
    h.current, h.running⟩

theorem register (h : ProcInv s) {parent : Option ℕ} {pid : ℕ} {new : Process} (ha : s.process a = none)
    (hpid : pid < maxProcesses) (hfree : s.processes pid = none) (hparent : ∀ q ∈ parent, q = s.current)
    (hidleparent : parent ≠ some s.idleProcess) (hnew : new.links = ⟨pid, parent, [], none⟩)
    (hstate : new.state = .new) (hself : t.process a = some new)
    (hother : ∀ b ≠ a, t.process b = (s.process b).map fun p =>
      if parent = some b then { p with children := a :: p.children } else p)
    (hprocesses : t.processes = Function.update s.processes pid (some a))
    (hcount : t.processCount = s.processCount + 1) (hall : t.allProcesses = a :: s.allProcesses)
    (hready : t.readyQueue = s.readyQueue) (hzombie : t.zombieQueue = s.zombieQueue)
    (hcurrent : t.current = s.current) (hidle : t.idleProcess = s.idleProcess)
      (hnext : t.nextPid = s.nextPid) :
    ProcInv t := by
  have hne : ∀ b, s.process b ≠ none → b ≠ a := by
    rintro b hb rfl
    exact hb ha
  have hlinksnone : s.links a = none := by rw [ProcessManager.links, ha]; rfl
  have hstatenone : s.state a = none := by rw [ProcessManager.state, ha]; rfl
  obtain ⟨i, hi⟩ := h.registered.process_of_mem h.registered.idle_mem
  have hidlene : a ≠ s.idleProcess := (hne _ (by rw [hi]; exact Option.some_ne_none i)).symm
  have hstates : t.state = Function.update s.state a (some .new) := by
    funext b
    by_cases hb : b = a
    · subst hb
      rw [Function.update_self, ProcessManager.state, hself, Option.map_some, hstate]
    · rw [Function.update_of_ne hb, ProcessManager.state, hother b hb, ProcessManager.state]
      cases s.process b with
      | none => rfl
      | some p =>
        rw [Option.map_some, Option.map_some, Option.map_some]
        split <;> rfl
  obtain ⟨hnotready, hnotzombie⟩ := not_or.mp (h.queues.not_queued (a := a)
    (by rw [hstatenone]; exact (Option.some_ne_none _).symm)
      (by rw [hstatenone]; exact (Option.some_ne_none _).symm))
  refine ⟨h.queues.change hstates ?_ ?_ hidle fun heq => absurd heq hidlene,
    h.registered.add hlinksnone hpid hfree (fun q hq => ?_) hidleparent ?_
      (fun b hb => ?_) hprocesses hcount hall
      hidle ?_, ?_, ?_⟩
  · rw [hready, if_neg fun hand => ProcessState.noConfusion hand.1, List.append_nil,
      List.erase_of_not_mem hnotready]
  · rw [hzombie, if_neg ProcessState.noConfusion, List.nil_append, List.erase_of_not_mem hnotzombie]
  · rw [hparent q hq, ProcessManager.links_ne_none]
    exact h.current
  · rw [ProcessManager.links, hself, Option.map_some, hnew]
  · rw [ProcessManager.links, hother b hb, ProcessManager.links]
    cases s.process b with
    | none => rfl
    | some p =>
      rw [Option.map_some, Option.map_some, Option.map_some, Option.map_some]
      split <;> rfl
  · rw [hnext]
    exact h.registered.nextPid
  · rw [hcurrent, hother _ (hne _ h.current), Ne, Option.map_eq_none_iff]
    exact h.current
  · rw [hcurrent, hidle, hstates, Function.update_of_ne (hne _ h.current)]
    exact h.running

theorem linkParent_spec {c : Process} (ha : s.process a = some p) (hne : s.current ≠ a)
    (hc : s.process s.current = some c) (hsibling : p.sibling = none) :
    ∃ parent new g, s.linkParent a = some { s with process := g } ∧ (∀ q ∈ parent, q = s.current) ∧
      parent ≠ some s.idleProcess ∧ new.links = { p.links with sibling := parent } ∧
        new.state = p.state ∧
      g a = some new ∧ ∀ b ≠ a, g b = (s.process b).map fun p =>
        if parent = some b then { p with children := a :: p.children } else p := by
  unfold ProcessManager.linkParent
  split
  · refine ⟨none, p, s.process, rfl, fun q hq => absurd hq.symm (Option.some_ne_none q),
      (Option.some_ne_none _).symm, ?_, rfl, ha, fun b _ => ?_⟩
    · rw [Process.links, hsibling]
    · have hid : (fun p : Process => if none = some b then
        { p with children := a :: p.children } else p) = id := by
        funext p
        exact if_neg (Option.some_ne_none b).symm
      rw [hid, Option.map_id]
      rfl
  · rename_i hidle
    refine ⟨some s.current, { p with parent := some s.current, sibling := some s.current },
      Function.update (Function.update s.process a (some { p with
        parent := some s.current
        sibling := some s.current })) s.current (some { c with children := a :: c.children }), ?_,
      fun q hq => (Option.some.inj hq).symm, fun heq => hidle (Option.some.inj heq), rfl, rfl, ?_,
        fun b hb => ?_⟩
    · dsimp only [Option.bind_eq_bind]
      rw [hc, Option.bind_some, ProcessManager.modify, ProcessManager.modify_of_some ha]
      dsimp only [ProcessManager.modify]
      rw [Function.update_of_ne hne, hc]
      rfl
    · rw [Function.update_of_ne hne.symm, Function.update_self]
    · by_cases hbc : b = s.current
      · subst hbc
        rw [Function.update_self, hc, Option.map_some, if_pos rfl]
      · have hneq : some s.current ≠ some b := fun heq => hbc (Option.some.inj heq).symm
        rw [Function.update_of_ne hbc, Function.update_of_ne hb]
        cases s.process b with
        | none => rfl
        | some r => rw [Option.map_some, if_neg hneq]

theorem processCreate (h : ProcInv s) (name : Option String) (entry : ℕ) (priority : ℤ) {mem : Option ℕ}
    (hmem : ∀ a ∈ mem, s.process a = none) (stack : Bool) (now : UInt64) :
    ∃ t ret, s.processCreate name entry priority mem stack now = some (t, ret) ∧ ProcInv t := by
  unfold ProcessManager.processCreate
  split
  · exact ⟨s, none, rfl, h⟩
  · cases mem with
    | none => exact ⟨s, none, rfl, h⟩
    | some a =>
      have ha := hmem a rfl
      have hback : Function.update (Function.update s.process a (some {})) a none = s.process := by
        rw [Function.update_idem, ← ha, Function.update_eq_self]
      dsimp only
      have halloc : ProcessManager.allocPid
          { s with process := Function.update s.process a (some {}) } = s.allocPid := rfl
      rw [halloc]
      cases hpid : s.allocPid with
      | none =>
        refine ⟨s, none, ?_, h⟩
        dsimp only [ProcessManager.freeProcess]
        rw [hback]
      | some pid =>
        obtain ⟨⟨-, hlt⟩, hfree⟩ := findPid_spec hpid h.registered.nextPid
        dsimp only
        split
        · refine ⟨_, none, rfl, ?_⟩
          dsimp only [ProcessManager.freeProcess]
          rw [hback]
          exact h.withPid pid
        · have hbase := h.withPid pid
          obtain ⟨c, hc⟩ := Option.ne_none_iff_exists'.mp h.current
          have hne : s.current ≠ a := by
            intro heq
            rw [heq, ha] at hc
            exact Option.some_ne_none c hc.symm
          generalize hp : (if 139 < (if priority < 0 then 0 else priority) then (139 : ℤ)
            else if priority < 0 then 0 else priority) = prio
          generalize hu : ProcessManager.modify { s with
            process := Function.update s.process a (some {})
            nextPid := ProcessManager.pidAfter pid } a
              (ProcessManager.initProcess pid entry prio now) = u
          have hprocess : u.process = Function.update s.process a
              (some (ProcessManager.initProcess pid entry prio now {})) := by
            rw [← hu]
            exact (ProcessManager.modify_of_some (Function.update_self ..)).trans
              (Function.update_idem ..)
          have hother : ∀ b ≠ a, u.process b = s.process b := fun b hb => by
            rw [hprocess, Function.update_of_ne hb]
          have hcurrent : u.current = s.current := by rw [← hu]; rfl
          have hidle : u.idleProcess = s.idleProcess := by rw [← hu]; rfl
          obtain ⟨parent, new, g, hrun, hparent, hidleparent, hnew, hstate, hself, hg⟩ :=
              linkParent_spec
            (show u.process a = some _ by rw [hprocess, Function.update_self])
              (by rw [hcurrent]; exact hne)
            (by rw [hcurrent, hother _ hne]; exact hc) rfl
          rw [hrun]
          refine ⟨_, some a, rfl,
            @register _ _ _ hbase parent _ new ha hlt hfree ?_ ?_ hnew hstate hself
            (fun b hb => ?_) ?_ ?_ ?_ ?_ ?_ ?_ ?_ ?_⟩
          · rw [hcurrent] at hparent
            exact hparent
          · rw [hidle] at hidleparent
            exact hidleparent
          · rw [← hother b hb]
            exact hg b hb
          all_goals rw [← hu]; rfl

theorem step (h : ProcInv s) {c : ProcessStep} (hallowed : c.Allowed s) (hsafe : c.Safe s) :
    ∃ t, c.run s = some t ∧ ProcInv t := by
  have hfst {β : Type} {r : Option (ProcessManager × β)} (hr : ∃ t ret, r = some (t, ret) ∧ ProcInv t) :
      ∃ t, r.map Prod.fst = some t ∧ ProcInv t := by
    obtain ⟨t, ret, rfl, ht⟩ := hr
    exact ⟨t, rfl, ht⟩
  cases c with
  | processCreate name entry priority mem stack now =>
    exact hfst (h.processCreate name entry priority hallowed stack now)
  | processStart proc => exact hfst (h.processStart hallowed)
  | processSchedule now => exact processSchedule h.queues h.registered h.current now
  | processSleep proc nanoseconds now => exact h.processSleep hallowed nanoseconds now
  | processWake proc => exact hfst (h.processWake hallowed hsafe)
  | processBlock proc obj now => exact h.processBlock hallowed obj now
  | processUnblockAll obj => exact h.processUnblockAll hsafe
  | processKill pid exitCode now => exact hfst (h.processKill pid exitCode now)
  | processDestroy proc => exact h.processDestroy hallowed hsafe

theorem queuesOk (h : ProcInv s) : QueuesOk s where
  ready_nodup := h.queues.ready_nodup
  ready a := by rw [h.queues.ready, ProcessManager.state, Option.map_eq_some_iff]
  zombie_nodup := h.queues.zombie_nodup
  zombie a := by rw [h.queues.zombie, ProcessManager.state, Option.map_eq_some_iff]
  all_nodup := h.registered.all_nodup
  live a := by rw [h.registered.live, ProcessManager.links_ne_none]
  table a := by
    constructor
    · intro ha
      obtain ⟨l, hl⟩ := Option.ne_none_iff_exists'.mp ((h.registered.live a).mp ha)
      obtain ⟨hlt, hentry, -⟩ := h.registered.pids a l hl
      exact ⟨l.pid, hlt, hentry⟩
    · rintro ⟨pid, hpid, hentry⟩
      obtain ⟨l, hl, -⟩ := h.registered.table pid hpid a hentry
      rw [h.registered.live, hl]
      exact Option.some_ne_none l
  count := h.registered.count
  freed a ha := by
    have hstate : s.state a = none := by rw [ProcessManager.state, ha]; rfl
    have hlinks : s.links a = none := by rw [ProcessManager.links, ha]; rfl
    refine ⟨fun hmem => ?_, fun hmem => ?_, fun b p hb => ⟨fun hmem => ?_, fun hsib => ?_⟩⟩
    · have hready := ((h.queues.ready a).mp hmem).2
      rw [hstate] at hready
      exact Option.some_ne_none _ hready.symm
    · have hzombie := (h.queues.zombie a).mp hmem
      rw [hstate] at hzombie
      exact Option.some_ne_none _ hzombie.symm
    · have hown := ((h.registered.children b).2 a).mp (by
        rw [ProcessManager.childrenOf, ProcessManager.links, hb]
        exact hmem)
      rw [ProcessManager.siblingOf, hlinks] at hown
      exact Option.some_ne_none _ hown.symm
    · have hown := ((h.registered.children a).2 b).mpr (by
        rw [ProcessManager.siblingOf, ProcessManager.links, hb]
        exact hsib)
      rw [ProcessManager.childrenOf, hlinks] at hown
      exact List.not_mem_nil hown

theorem start (idle : ℕ) : ProcInv (processSystemInit idle) := by
  have hprocess : (processSystemInit idle).process = Function.update (fun _ => none) idle
      (some { state := .ready, priority := 139, basePriority := 139 }) := rfl
  have hprocesses : (processSystemInit idle).processes = Function.update (fun _ => none) 0
      (some idle) := rfl
  have hself : (processSystemInit idle).process idle =
      some { state := .ready, priority := 139, basePriority := 139 } := by
    rw [hprocess, Function.update_self]
  have hother : ∀ b ≠ idle, (processSystemInit idle).process b = none := fun b hb => by
    rw [hprocess, Function.update_of_ne hb]
  have hlinks : (processSystemInit idle).links idle = some ⟨0, none, [], none⟩ := by
    rw [ProcessManager.links, hself]
    rfl
  have hlinksother : ∀ b ≠ idle, (processSystemInit idle).links b = none := fun b hb => by
    rw [ProcessManager.links, hother b hb]
    rfl
  have hstate : (processSystemInit idle).state idle = some .ready := by
    rw [ProcessManager.state, hself]
    rfl
  have hstateother : ∀ b ≠ idle, (processSystemInit idle).state b = none := fun b hb => by
    rw [ProcessManager.state, hother b hb]
    rfl
  refine ⟨⟨List.nodup_nil, fun a => ?_, List.nodup_nil, fun a => ?_, .ready, hstate, .inl rfl⟩,
    ⟨List.nodup_singleton idle, fun a => ?_, fun a l hl => ?_, fun pid hpid a ha => ?_, ?_, fun a => ?_,
      ⟨_, hlinks, rfl, rfl⟩, Nat.one_pos, Nat.one_lt_two_pow (by decide : 8 ≠ 0)⟩, ?_, .inl rfl⟩
  · refine iff_of_false List.not_mem_nil fun hready => ?_
    rw [hstateother a hready.1] at hready
    exact Option.some_ne_none _ hready.2.symm
  · refine iff_of_false List.not_mem_nil fun hzombie => ?_
    by_cases ha : a = idle
    · rw [ha, hstate] at hzombie
      exact ProcessState.noConfusion (Option.some.inj hzombie)
    · rw [hstateother a ha] at hzombie
      exact Option.some_ne_none _ hzombie.symm
  · rw [show (processSystemInit idle).allProcesses = [idle] from rfl, List.mem_singleton]
    by_cases ha : a = idle
    · subst ha
      rw [hlinks]
      exact iff_of_true rfl (Option.some_ne_none _)
    · rw [hlinksother a ha]
      exact iff_of_false ha fun hne => hne rfl
  · by_cases ha : a = idle
    · subst ha
      obtain rfl := Option.some.inj (hlinks.symm.trans hl)
      exact ⟨by decide, by rw [hprocesses, Function.update_self], rfl⟩
    · rw [hlinksother a ha] at hl
      exact absurd hl.symm (Option.some_ne_none l)
  · rw [hprocesses] at ha
    by_cases hzero : pid = 0
    · subst hzero
      rw [Function.update_self] at ha
      obtain rfl := Option.some.inj ha
      exact ⟨_, hlinks, rfl⟩
    · rw [Function.update_of_ne hzero] at ha
      exact absurd ha.symm (Option.some_ne_none a)
  · change (0 : ℤ) = ([idle].erase idle).length
    rw [List.erase_cons_head]
    rfl
  · have hchildren : (processSystemInit idle).childrenOf a = [] := by
      by_cases ha : a = idle
      · rw [ProcessManager.childrenOf, ha, hlinks]
        rfl
      · rw [ProcessManager.childrenOf, hlinksother a ha]
        rfl
    have hsibling : ∀ c, (processSystemInit idle).siblingOf c = none := by
      intro c
      by_cases hc : c = idle
      · rw [ProcessManager.siblingOf, hc, hlinks]
        rfl
      · rw [ProcessManager.siblingOf, hlinksother c hc]
        rfl
    rw [hchildren]
    refine ⟨List.nodup_nil, fun c => iff_of_false List.not_mem_nil ?_⟩
    rw [hsibling c]
    exact (Option.some_ne_none a).symm
  · change (processSystemInit idle).process idle ≠ none
    rw [hself]
    exact Option.some_ne_none _

end ProcInv

theorem queues_agree {idle : ℕ} {steps : List ProcessStep}
    (hsteps : Meets ProcessStep.run (fun s c => c.Allowed s ∧ c.Safe s)
      (processSystemInit idle) steps) :
    ∃ s, steps.foldlM ProcessStep.run (processSystemInit idle) = some s ∧ QueuesOk s := by
  obtain ⟨s, hrun, hinv⟩ := hsteps.foldlM (I := fun _ => ProcInv) (N := steps.length) (k := 0)
    (fun k s c _ hs hc => hs.step hc.1 hc.2) (.start idle) (by omega)
  exact ⟨s, hrun, hinv.queuesOk⟩

/-- The third process is made by the first one, which then sleeps and is woken. The third one is
destroyed, and the second one is blocked, unblocked and killed. -/
def threeProcesses : List ProcessStep :=
  [.processCreate (some "a") 1 0 (some 8) true 0, .processStart (some 8),
    .processCreate (some "b") 1 0 (some 12) true 0, .processStart (some 12), .processSchedule 1,
    .processCreate (some "c") 1 0 (some 16) true 1, .processStart (some 16), .processSleep none 5 2,
    .processWake (some 8), .processDestroy (some 16), .processBlock none 7 3, .processUnblockAll 7,
    .processKill 2 0 4]

theorem queues_agree_three_processes : ∃ s,
    threeProcesses.foldlM ProcessStep.run (processSystemInit 4) = some s ∧ s.current = 8 ∧
      s.readyQueue = [] ∧ s.zombieQueue = [12] ∧ QueuesOk s := by
  have hqueues : (threeProcesses.foldlM ProcessStep.run (processSystemInit 4)).map
      (fun s => (s.current, s.readyQueue, s.zombieQueue)) = some (8, [], [12]) := by decide +kernel
  obtain ⟨s, hrun, hok⟩ := @queues_agree 4 threeProcesses (by decide +kernel)
  rw [hrun, Option.map_some, Option.some_inj, Prod.mk.injEq, Prod.mk.injEq] at hqueues
  exact ⟨s, hrun, hqueues.1, hqueues.2.1, hqueues.2.2, hok⟩

/-- A process that has been killed is woken, the idle process is woken, and a process that the idle
process created is destroyed. -/
theorem wake_and_destroy :
    (∃ s, [ProcessStep.processCreate (some "a") 1 0 (some 8) true 0, .processKill 1 0 0,
      .processWake (some 8)].foldlM ProcessStep.run (processSystemInit 4) = some s ∧
        s.readyQueue = [] ∧ s.zombieQueue = [8] ∧ ¬QueuesOk s) ∧
    (∃ s, [ProcessStep.processCreate (some "a") 1 0 (some 8) true 0, .processStart (some 8),
      .processSleep none 5 0,
      .processWake (some 4)].foldlM ProcessStep.run (processSystemInit 4) = some s ∧
        s.readyQueue = [s.idleProcess] ∧ ¬QueuesOk s) ∧
    [ProcessStep.processCreate (some "a") 1 0 (some 8) true 0,
      .processDestroy (some 8)].foldlM ProcessStep.run
      (processSystemInit 4) = none := by
  refine ⟨⟨_, rfl, rfl, rfl, fun h => ?_⟩, ⟨_, rfl, rfl, fun h => ?_⟩, rfl⟩
  · exact List.not_mem_nil ((h.ready 8).mpr ⟨by decide, _, rfl, rfl⟩)
  · exact ((h.ready 4).mp List.mem_cons_self).1 rfl

end GcAos.Proc.Modern
