import GcAos.Lib.Exec
import GcAos.Sched.Fairness
import GcAos.Sched.RbErase

/-! The tree of a run queue, over the tasks that are put into it and taken out. -/

namespace GcAos.Sched
open Lib
open Lib.RbTree (plug around parentOf Frame before behind)

variable {api : RbApi} {s : Fairness} {n rq task : ℕ} {T : RbTree ℕ}

/-- The run queue holds the nodes of `T`, which is a search tree. -/
structure QueueOk (s : Fairness) (rq : ℕ) (T : RbTree ℕ) : Prop where
  linked : Rb.Linked (s.tree rq) T
  valid : T.Valid
  sorted : T.toList.Pairwise fun x y => s.vruntime x ≤ s.vruntime y
  leftmost : (s.rq rq).rbLeftmost = T.toList.headD 0

/-- Nothing but the queue at `rq` and the nodes of `l` changed. -/
structure Outside (s s' : Fairness) (rq : ℕ) (l : List ℕ) : Prop where
  node : ∀ z, z ≠ 0 → z ∉ l → (s.tree rq).Agree (s'.tree rq) z
  rq : ∀ r, r ≠ rq → s'.rq r = s.rq r
  nrCpus : s'.nrCpus = s.nrCpus

theorem findLink_spec {v k P : ℕ} (d : Side) (h : (s.tree rq).Hangs P T)
    (hsorted : T.toList.Pairwise fun x y => s.vruntime x ≤ s.vruntime y) (hk : T.size < k) :
    ∃ q, plug q .nil = T ∧
      findLink s v k T.root P d = some (parentOf P q, (q.head?.map Frame.side).getD d) ∧
      (∀ x ∈ before q, s.vruntime x ≤ v) ∧ ∀ x ∈ behind q, v < s.vruntime x := by
  induction T generalizing P k d with
  | nil =>
    obtain ⟨k, rfl⟩ : ∃ m, k = m + 1 := ⟨k - 1, by omega⟩
    exact ⟨[], rfl, by simp [findLink, RbTree.root, parentOf], by simp [before], by simp [behind]⟩
  | node red l a r ihl ihr =>
    obtain ⟨ha, hl, hr, -, -, hhl, hhr⟩ := h
    rw [RbTree.size] at hk
    obtain ⟨k, rfl⟩ : ∃ m, k = m + 1 := ⟨k - 1, by omega⟩
    rw [RbTree.toList, List.pairwise_append, List.pairwise_cons] at hsorted
    obtain ⟨hsl, ⟨har, hsr⟩, hlar⟩ := hsorted
    change s.child .left a = l.root at hl
    change s.child .right a = r.root at hr
    rw [RbTree.root, findLink, if_neg ha]
    by_cases hv : v < s.vruntime a
    · obtain ⟨q, rfl, hfind, hbefore, hbehind⟩ := ihl .left hhl hsl (k := k) (by omega)
      refine ⟨q ++ [⟨.left, red, a, r⟩], ?_, ?_, ?_, ?_⟩
      · rw [RbTree.plug_append]
        rfl
      · rw [if_pos hv]
        dsimp only
        rw [hl, hfind, RbTree.parentOf_append]
        cases q <;> rfl
      · rw [RbTree.before_append]
        exact hbefore
      · rw [RbTree.behind_append]
        intro x hx
        rcases List.mem_append.mp hx with hx | hx
        · exact hbehind x hx
        · rcases List.mem_cons.mp hx with rfl | hx
          · exact hv
          · rw [behind, List.append_nil] at hx
            exact hv.trans_le (har x hx)
    · obtain ⟨q, rfl, hfind, hbefore, hbehind⟩ := ihr .right hhr hsr (k := k) (by omega)
      have hv' : s.vruntime a ≤ v := not_lt.mp hv
      refine ⟨q ++ [⟨.right, red, a, l⟩], ?_, ?_, ?_, ?_⟩
      · rw [RbTree.plug_append]
        rfl
      · rw [if_neg hv]
        dsimp only
        rw [hr, hfind, RbTree.parentOf_append]
        cases q <;> rfl
      · rw [RbTree.before_append]
        intro x hx
        rcases List.mem_append.mp hx with hx | hx
        · rw [before, before, List.nil_append] at hx
          rcases List.mem_append.mp hx with hx | hx
          · exact (hlar x hx a List.mem_cons_self).trans hv'
          · rw [List.mem_singleton.mp hx]
            exact hv'
        · exact hbefore x hx
      · rw [RbTree.behind_append]
        intro x hx
        rcases List.mem_append.mp hx with hx | hx
        · exact hbehind x hx
        · exact absurd hx List.not_mem_nil

def initFairTask (s : Fairness) (task rq : ℕ) : Fairness :=
    s.setTask task (initFairness (s.rq rq) (s.task task))

def InsertRecolours (n : ℕ) (s : Fairness) (task rq : ℕ) : Prop :=
  ∀ parent side, findLink (initFairTask s task rq) ((initFairTask s task rq).vruntime task) n
    (s.rq rq).rbRoot 0 .left =
    some (parent, side) → OnlyRecolours (s.tree rq) parent

theorem vruntime_initFairTask_of_ne {x : ℕ} (h : x ≠ task) :
    (initFairTask s task rq).vruntime x = s.vruntime x := by
  unfold Fairness.vruntime
  exact congrArg _ (Function.update_of_ne h _ _)

structure Enqueued (s s' : Fairness) (task rq : ℕ) (T T' : RbTree ℕ) : Prop where
  ok : QueueOk s' rq T'
  perm : T'.toList.Perm (task :: T.toList)
  outside : Outside s s' rq (task :: T.toList)
  tasks : s'.task = (initFairTask s task rq).task
  nrRunning : (s'.rq rq).nrRunning = (s.rq rq).nrRunning + 1
  runnableLoad : (s'.rq rq).runnableLoad = (s.rq rq).runnableLoad + s'.weight task

section Finish

variable {t : Rb}

theorem finishEnqueue_rq : (finishEnqueue s task rq t).rq rq =
    { s.rq rq with
      rbRoot := t.root
      rbLeftmost := if (s.rq rq).rbLeftmost = 0 ∨
        s.vruntime task < s.vruntime (s.rq rq).rbLeftmost then task
        else (s.rq rq).rbLeftmost
      nrRunning := (s.rq rq).nrRunning + 1
      runnableLoad := (s.rq rq).runnableLoad + s.weight task } := by
  refine (Function.update_self ..).trans ?_
  rw [Fairness.rq_setTree_self]
  rfl

theorem finishEnqueue_tree : (finishEnqueue s task rq t).tree rq = t := by
  have hroot : ((finishEnqueue s task rq t).rq rq).rbRoot = t.root := by rw [finishEnqueue_rq]
  unfold Fairness.tree
  rw [hroot]
  rfl

theorem finishEnqueue_rq_of_ne {r : ℕ} (h : r ≠ rq) : (finishEnqueue s task rq t).rq r = s.rq r :=
  (Function.update_of_ne h ..).trans (Fairness.rq_setTree_of_ne h)

theorem finishDequeue_rq {first : ℕ} : (finishDequeue s task rq first t).rq rq =
    { s.rq rq with
      rbRoot := t.root
      rbLeftmost := if (s.rq rq).rbLeftmost = task then first else (s.rq rq).rbLeftmost
      nrRunning := (s.rq rq).nrRunning - 1
      runnableLoad := (s.rq rq).runnableLoad - s.weight task } := by
  refine (Function.update_self ..).trans ?_
  rw [Fairness.rq_setTree_self]
  rfl

theorem finishDequeue_tree {first : ℕ} : (finishDequeue s task rq first t).tree rq = t := by
  have hroot : ((finishDequeue s task rq first t).rq rq).rbRoot = t.root := by rw [finishDequeue_rq]
  unfold Fairness.tree
  rw [hroot]
  rfl

theorem finishDequeue_rq_of_ne {first r : ℕ} (h : r ≠ rq) :
    (finishDequeue s task rq first t).rq r = s.rq r :=
  (Function.update_of_ne h ..).trans (Fairness.rq_setTree_of_ne h)

end Finish

theorem headD_insert {v : ℕ → ℕ} {xs ys : List ℕ} {x : ℕ} (hxs : ∀ y ∈ xs, y ≠ 0 ∧ v y ≤ v x)
    (hys : ∀ y ∈ ys, v x < v y) :
    (if (xs ++ ys).headD 0 = 0 ∨ v x < v ((xs ++ ys).headD 0) then x else (xs ++ ys).headD 0) =
      (xs ++ x :: ys).headD 0 := by
  cases xs with
  | nil =>
    cases ys with
    | nil => rfl
    | cons y ys => exact if_pos (.inr (hys y List.mem_cons_self))
  | cons y xs =>
    obtain ⟨hne, hle⟩ := hxs y List.mem_cons_self
    exact if_neg (not_or.mpr ⟨hne, hle.not_gt⟩)

theorem enqueue_spec (hapi : api.Standard) (h : QueueOk s rq T) (hrq : rq ≠ 0) (htask : task ≠ 0)
    (hnot : task ∉ T.toList) (hn : T.size < n) (hrec : InsertRecolours n s task rq) :
    ∃ s' T', fairnessEnqueueTask api n s task rq = some s' ∧ Enqueued s s' task rq T T' := by
  generalize hs₁ : initFairTask s task rq = s₁
  have hvr : ∀ x ∈ T.toList, s₁.vruntime x = s.vruntime x := by
    intro x hx
    rw [← hs₁]
    exact vruntime_initFairTask_of_ne (ne_of_mem_of_not_mem hx hnot)
  have htree : s₁.tree rq = s.tree rq := by rw [← hs₁]; rfl
  have hlink : Rb.Linked (s₁.tree rq) T := by rw [htree]; exact h.linked
  have hsorted : T.toList.Pairwise fun x y => s₁.vruntime x ≤ s₁.vruntime y :=
    h.sorted.imp_of_mem fun {x y} hx hy hxy => by rwa [hvr x hx, hvr y hy]
  obtain ⟨q, rfl, hfind, hbefore, hbehind⟩ :=
      findLink_spec (v := s₁.vruntime task) .left hlink.hangs hsorted hn
  have hroot : (s₁.rq rq).rbRoot = (plug q .nil).root := hlink.root
  have hplug : (plug q .nil).toList = before q ++ behind q := RbTree.toList_plug q .nil
  have hrec' : OnlyRecolours (s₁.tree rq) (parentOf 0 q) := by
    rw [htree]
    refine hrec _ ((q.head?.map Frame.side).getD .left) ?_
    rw [hs₁, ← hfind, ← hroot, ← hs₁]
    rfl
  have hside : ∀ f ∈ q.head?, f.side = (q.head?.map Frame.side).getD .left := by
    intro f hf
    rw [Option.mem_def.mp hf]
    rfl
  have hlen : q.length < n := by
    rw [RbTree.size_plug] at hn
    have := RbTree.length_le_around q
    omega
  obtain ⟨t, T', hrun, hlink', hvalid', hlist, hsame⟩ :=
    insert_spec hapi hlink h.valid htask hnot hside hrec' hlen
  have hmin : (s₁.rq rq) = s.rq rq := by rw [← hs₁]; rfl
  have hcall : fairnessEnqueueTask api n s task rq = some (finishEnqueue s₁ task rq t) := by
    have hs₁' : s.setTask task (initFairness (s.rq rq) (s.task task)) = s₁ := hs₁
    unfold fairnessEnqueueTask
    rw [if_neg (not_or.mpr ⟨htask, hrq⟩)]
    simp only [hs₁', hroot, hfind, Option.bind_eq_bind, Option.bind_some, hrun]
  have hbefore' : ∀ x ∈ before q, x ≠ 0 := fun x hx =>
    h.linked.ne_zero (by rw [hplug]; exact List.mem_append_left _ hx)
  refine ⟨_, T', hcall, ⟨?_, hvalid', ?_, ?_⟩, ?_, ⟨fun z hz hnotz => ?_, fun r hr => ?_, ?_⟩, ?_,
    ?_, ?_⟩
  · rwa [finishEnqueue_tree]
  · rw [hlist]
    rw [hplug] at hsorted
    refine List.pairwise_append.mpr ⟨(List.pairwise_append.mp hsorted).1, List.pairwise_cons.mpr
      ⟨fun x hx => (hbehind x hx).le, (List.pairwise_append.mp hsorted).2.1⟩, fun x hx y hy => ?_⟩
    rcases List.mem_cons.mp hy with rfl | hy
    · exact hbefore x hx
    · exact (List.pairwise_append.mp hsorted).2.2 x hx y hy
  · have hfirst := h.leftmost
    rw [hplug] at hfirst
    rw [finishEnqueue_rq, hmin, hlist, hfirst]
    exact headD_insert (fun x hx => ⟨hbefore' x hx, hbefore x hx⟩) hbehind
  · rw [hlist, hplug]
    exact List.perm_middle
  · rw [finishEnqueue_tree, ← htree]
    refine hsame z hz fun hmem => hnotz ?_
    rw [hplug, List.mem_cons, List.mem_append]
    simpa [or_left_comm] using hmem
  · rw [finishEnqueue_rq_of_ne hr, ← hs₁]
    rfl
  · rw [← hs₁]
    rfl
  · rw [hs₁]
    rfl
  · rw [finishEnqueue_rq, hmin]
  · rw [finishEnqueue_rq, hmin]
    rfl

structure Dequeued (s s' : Fairness) (task rq : ℕ) (T T' : RbTree ℕ) : Prop where
  ok : QueueOk s' rq T'
  list : T'.toList = T.toList.erase task
  outside : Outside s s' rq T.toList
  tasks : s'.task = s.task
  nrRunning : (s'.rq rq).nrRunning = (s.rq rq).nrRunning - 1
  runnableLoad : (s'.rq rq).runnableLoad = (s.rq rq).runnableLoad - s.weight task

theorem headD_erase {xs : List ℕ} {x : ℕ} :
    (if xs.headD 0 = x then (xs.erase x).headD 0 else xs.headD 0) = (xs.erase x).headD 0 := by
  by_cases h : xs.headD 0 = x
  · exact if_pos h
  · rw [if_neg h]
    cases xs with
    | nil => rfl
    | cons y xs => rw [List.erase_cons_tail (by simpa using h), List.headD_cons, List.headD_cons]

theorem dequeue_spec (hapi : api.Standard) (h : QueueOk s rq T) (hrq : rq ≠ 0) (hmem : task ∈ T.toList)
    (hn : T.size < n) (hsafe : ¬LeftWithTwo (s.tree rq) task) :
    ∃ s' T', fairnessDequeueTask api n s task rq = some s' ∧ Dequeued s s' task rq T T' := by
  have htask : task ≠ 0 := h.linked.ne_zero hmem
  obtain ⟨t, T', hrun, hlink', hvalid', hlist, hsame⟩ :=
      rbErase_spec hapi h.linked h.valid hmem hn hsafe
  have hcall : fairnessDequeueTask api n s task rq = some
      (finishDequeue s task rq (api.first n t) t) := by
    unfold fairnessDequeueTask
    rw [if_neg (not_or.mpr ⟨htask, hrq⟩)]
    simp only [Option.bind_eq_bind, Option.bind_some, hrun]
  have hsub : (T.toList.erase task).Sublist T.toList := List.erase_sublist
  have hsize : T'.size ≤ n := by
    have := hsub.length_le
    rw [← hlist, RbTree.length_toList, RbTree.length_toList] at this
    omega
  refine ⟨_, T', hcall, ⟨?_, hvalid', ?_, ?_⟩, hlist, ⟨fun z hz hnot => ?_, fun r hr => ?_, rfl⟩,
    rfl, ?_, ?_⟩
  · rwa [finishDequeue_tree]
  · rw [hlist]
    exact h.sorted.sublist hsub
  · rw [finishDequeue_rq, h.leftmost, hapi.first hlink' hsize, hlist]
    exact headD_erase
  · rw [finishDequeue_tree]
    exact hsame z hz fun hmem => hnot (hsub.subset hmem)
  · exact finishDequeue_rq_of_ne hr
  · rw [finishDequeue_rq]
  · rw [finishDequeue_rq]

/-! Runs. -/

inductive RqCall
  | enqueue (task : ℕ)
  | dequeue (task : ℕ)

namespace RqCall

def run (api : RbApi) (n rq : ℕ) (s : Fairness) : RqCall → Option Fairness
  | enqueue task => fairnessEnqueueTask api n s task rq
  | dequeue task => fairnessDequeueTask api n s task rq

def queued (l : List ℕ) : RqCall → List ℕ
  | enqueue task => task :: l
  | dequeue task => l.erase task

def Allowed (l : List ℕ) : RqCall → Prop
  | enqueue task => task ≠ 0 ∧ task ∉ l
  | dequeue task => task ∈ l

instance (l : List ℕ) : (c : RqCall) → Decidable (c.Allowed l)
  | enqueue _ => inferInstanceAs (Decidable (_ ∧ _))
  | dequeue _ => inferInstanceAs (Decidable (_ ∈ _))

def Safe (n rq : ℕ) (s : Fairness) : RqCall → Prop
  | enqueue task => InsertRecolours n s task rq
  | dequeue task => ¬LeftWithTwo (s.tree rq) task

def step (api : RbApi) (n rq : ℕ) (v : Fairness × List ℕ) (c : RqCall) : Option (Fairness × List ℕ) :=
  (c.run api n rq v.1).map fun s => (s, c.queued v.2)

end RqCall

/-- The queue at `rq` is a red-black search tree of the tasks `l`, and its leftmost node is a first
one. -/
def FairTree (s : Fairness) (rq : ℕ) (l : List ℕ) : Prop :=
  (∃ T, Rb.Linked (s.tree rq) T ∧ T.Valid ∧ T.toList.Perm l ∧
    T.toList.Pairwise fun x y => s.vruntime x ≤ s.vruntime y) ∧
  ((s.rq rq).rbLeftmost = 0 ↔ l = []) ∧
  (l ≠ [] → (s.rq rq).rbLeftmost ∈ l ∧ ∀ x ∈ l, s.vruntime (s.rq rq).rbLeftmost ≤ s.vruntime x)

theorem QueueOk.fairTree {l : List ℕ} (h : QueueOk s rq T) (hperm : T.toList.Perm l) :
    FairTree s rq l := by
  refine ⟨⟨T, h.linked, h.valid, hperm, h.sorted⟩, ?_⟩
  have hleft := h.leftmost
  have hsorted := h.sorted
  have hne : ∀ x ∈ T.toList, x ≠ 0 := fun x => h.linked.ne_zero
  generalize T.toList = xs at hperm hleft hsorted hne
  cases xs with
  | nil =>
    rw [hperm.nil_eq]
    exact ⟨⟨fun _ => rfl, fun _ => hleft⟩, fun h => absurd rfl h⟩
  | cons y xs =>
    rw [List.headD_cons] at hleft
    rw [hleft]
    refine ⟨⟨fun h => absurd h (hne y List.mem_cons_self), ?_⟩, fun _ =>
      ⟨hperm.subset List.mem_cons_self, ?_⟩⟩
    · rintro rfl
      exact absurd hperm.eq_nil (List.cons_ne_nil y xs)
    · intro x hx
      rcases List.mem_cons.mp (hperm.mem_iff.mpr hx) with rfl | hx
      · exact le_rfl
      · exact (List.pairwise_cons.mp hsorted).1 x hx

/-- A run queue with at most `k` tasks. -/
def QueueOf (rq k : ℕ) (v : Fairness × List ℕ) : Prop :=
  ∃ T, QueueOk v.1 rq T ∧ T.toList.Perm v.2 ∧ T.size ≤ k

theorem RqCall.step_spec {k : ℕ} {v : Fairness × List ℕ} {c : RqCall} (hapi : api.Standard)
    (hrq : rq ≠ 0)
    (hk : k < n) (hv : QueueOf rq k v) (hallowed : c.Allowed v.2) (hsafe : c.Safe n rq v.1) :
    ∃ w, c.step api n rq v = some w ∧ QueueOf rq (k + 1) w := by
  obtain ⟨s, l⟩ := v
  obtain ⟨T, hok, hperm, hsize⟩ := hv
  cases c with
  | enqueue task =>
    obtain ⟨htask, hnot⟩ := hallowed
    obtain ⟨s', T', hcall, h⟩ := enqueue_spec hapi hok hrq htask (fun hmem => hnot (hperm.subset hmem))
      (hsize.trans_lt hk) hsafe
    refine ⟨(s', task :: l), ?_, T', h.ok, h.perm.trans (hperm.cons task), ?_⟩
    · simp [step, run, hcall, queued]
    · have hlen := h.perm.length_eq
      rw [List.length_cons, RbTree.length_toList, RbTree.length_toList] at hlen
      omega
  | dequeue task =>
    obtain ⟨s', T', hcall, h⟩ := dequeue_spec hapi hok hrq (hperm.symm.subset hallowed)
        (hsize.trans_lt hk) hsafe
    refine ⟨(s', l.erase task), ?_, T', h.ok, ?_, ?_⟩
    · simp [step, run, hcall, queued]
    · rw [h.list]
      exact hperm.erase task
    · have hlen := (List.erase_sublist (a := task) (l := T.toList)).length_le
      rw [← h.list, RbTree.length_toList, RbTree.length_toList] at hlen
      omega

theorem fair_tree_kept {calls : List RqCall} (hapi : api.Standard) (hrq : rq ≠ 0)
    (hroot : (s.rq rq).rbRoot = 0)
    (hleft : (s.rq rq).rbLeftmost = 0) (hn : calls.length ≤ n)
    (hcalls : Meets (RqCall.step api n rq) (fun v c => c.Allowed v.2 ∧ c.Safe n rq v.1) (s, []) calls) :
    ∃ s' l, calls.foldlM (RqCall.step api n rq) (s, []) = some (s', l) ∧ FairTree s' rq l := by
  have hinit : QueueOf rq 0 (s, []) :=
    ⟨.nil, ⟨⟨trivial, hroot, List.nodup_nil⟩, ⟨rfl, 0, rfl⟩, List.Pairwise.nil, hleft⟩, .nil, le_rfl⟩
  obtain ⟨⟨s', l⟩, hrun, T, hok, hperm, -⟩ := hcalls.foldlM (I := QueueOf rq) (N := n) (k := 0)
    (fun k v c hk hv hc => RqCall.step_spec hapi hrq hk hv hc.1 hc.2) hinit (by omega)
  exact ⟨s', l, hrun, hok.fairTree hperm⟩

theorem fair_tree_kept_five_calls : ∃ s' l,
    [RqCall.enqueue 1, .enqueue 2, .enqueue 3, .enqueue 4, .dequeue 1].foldlM
      (RqCall.step .textbook 5 1)
      (fairnessInit (fun x => freshTask ([0, 20, 30, 10, 40].getD x 0) 1) 1, []) = some (s', l) ∧
    FairTree s' 1 l := by
  refine fair_tree_kept RbApi.textbook_standard (by decide) rfl rfl (by decide) ?_
  refine ⟨⟨by decide, fun parent side h => ?_⟩, fun t ht => ?_⟩
  · cases h
    exact .root
  cases ht
  refine ⟨⟨by decide, fun parent side h => ?_⟩, fun t ht => ?_⟩
  · cases h
    exact .black rfl
  cases ht
  refine ⟨⟨by decide, fun parent side h => ?_⟩, fun t ht => ?_⟩
  · cases h
    exact .black rfl
  cases ht
  refine ⟨⟨by decide, fun parent side h => ?_⟩, fun t ht => ?_⟩
  · cases h
    exact .red .right rfl (by decide) rfl .root
  cases ht
  exact ⟨⟨by decide, fun h => absurd h.1 (by decide)⟩, fun t ht => trivial⟩

/-- The third task is an inner child below a red node: its left child, NULL, is taken for the parent. -/
theorem inner_child_crashes : RbApi.textbook.Standard ∧ ∀ n,
    Meets (RqCall.step .textbook n 1) (fun v c => c.Allowed v.2)
      (fairnessInit (fun x => freshTask ([0, 30, 10, 20].getD x 0) 1) 1, [])
      [.enqueue 1, .enqueue 2, .enqueue 3] ∧
    [RqCall.enqueue 1, .enqueue 2, .enqueue 3].foldlM (RqCall.step .textbook n 1)
      (fairnessInit (fun x => freshTask ([0, 30, 10, 20].getD x 0) 1) 1, []) = none := by
  refine ⟨RbApi.textbook_standard, fun n => ⟨⟨by decide, fun t ht => ?_⟩, ?_⟩⟩
  · obtain ⟨s, -, rfl⟩ := Option.map_eq_some_iff.mp ht
    refine ⟨by simp [RqCall.Allowed, RqCall.queued], fun t ht => ?_⟩
    obtain ⟨s, -, rfl⟩ := Option.map_eq_some_iff.mp ht
    exact ⟨by simp [RqCall.Allowed, RqCall.queued], fun t ht => trivial⟩
  · rcases n with _ | _ | _ | _ | n <;> rfl

end GcAos.Sched
