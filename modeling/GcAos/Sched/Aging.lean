import GcAos.Sched.Fairness
import GcAos.Lib.RbWalk

/-! Aging and starvation boosting in `kernel/sched/fairness.c`, which lower virtual runtimes in place, and
`rb_first` and `rb_next` of `kernel/mm/missing_symbols.c`. -/

namespace GcAos.Sched
open Lib

def fairnessAgeBoost : ℕ := 1
def fairnessMaxAge : ℤ := 10

/-- The fields of `struct task_fairness` that are used here alone. -/
structure TaskAging where
  age : ℤ
  lastAgeTime : BitVec 64
  lastRunTime : BitVec 64
  starvationCount : ℤ
  aged : Bool
  starving : Bool
  boosted : Bool

/-- The scheduler with what aging needs of the tasks, the run queues and `fairness_ctx`. -/
structure AgingState extends Fairness where
  aging : ℕ → TaskAging
  lastAgingTime : ℕ → BitVec 64
  agingInterval : ℤ
  starvationThreshold : BitVec 64
  agingOperations : ℤ
  starvationPrevented : ℤ

/-- A `uint64_t` after a subtraction. -/
def lowered (v b : ℕ) : ℕ := (v + 2 ^ 64 - b) % 2 ^ 64

namespace AgingState

variable (s : AgingState)

/-- `task->fairness.vruntime -= boost` -/
def lower (x boost : ℕ) : AgingState :=
  { s with toFairness := s.setTask x { s.task x with vruntime := lowered (s.vruntime x) boost } }

def setAging (x : ℕ) (a : TaskAging) : AgingState := { s with aging := Function.update s.aging x a }

@[simp] theorem lower_vruntime_self (x b : ℕ) : (s.lower x b).vruntime x = lowered (s.vruntime x) b := by
  simp [lower, Fairness.vruntime, Fairness.setTask]

theorem lower_vruntime_of_ne {x y : ℕ} (h : y ≠ x) (b : ℕ) : (s.lower x b).vruntime y = s.vruntime y := by
  simp [lower, Fairness.vruntime, Fairness.setTask, h]

@[simp] theorem lower_aging (x b : ℕ) : (s.lower x b).aging = s.aging := rfl

@[simp] theorem setAging_vruntime (x : ℕ) (a : TaskAging) : (s.setAging x a).vruntime = s.vruntime := rfl

theorem setAging_aging_of_ne {x y : ℕ} (h : y ≠ x) (a : TaskAging) :
    (s.setAging x a).aging y = s.aging y :=
  Function.update_of_ne h ..

end AgingState

def rbFirst (k : ℕ) (t : Rb) : Option ℕ := if t.root = 0 then some 0 else t.leftmost k t.root

/-- `for (node = rb_first(&rq->rb_root); node; node = rb_next(node))`, with `Rb.next` for `rb_next`. -/
def forEachTask (body : AgingState → ℕ → AgingState) (k rq : ℕ) (s : AgingState) : Option AgingState :=
  (rbFirst k (s.tree rq)).bind fun node => Rb.walk (fun s => s.tree rq) body k k s node

def TooEarly (s : AgingState) (rq : ℕ) (now : BitVec 64) : Prop :=
  now - s.lastAgingTime rq < .ofInt 64 s.agingInterval

instance (s : AgingState) (rq : ℕ) (now : BitVec 64) : Decidable (TooEarly s rq now) :=
  inferInstanceAs (Decidable (_ < _))

def ageTask (now : BitVec 64) (s : AgingState) (task : ℕ) : AgingState :=
  if (s.aging task).age < fairnessMaxAge then
    let s := s.setAging task
      { s.aging task with age := (s.aging task).age + 1, lastAgeTime := now, aged := true }
    s.lower task fairnessAgeBoost
  else s

def fairnessAgeTasks (k : ℕ) (s : AgingState) (rq : ℕ) (now : BitVec 64) : Option AgingState :=
  if rq = 0 then some s
  else if TooEarly s rq now then some s
  else do
    let s := { s with lastAgingTime := Function.update s.lastAgingTime rq now }
    let s ← forEachTask (ageTask now) k rq s
    some { s with agingOperations := s.agingOperations + 1 }

def Starving (s : AgingState) (now : BitVec 64) (task : ℕ) : Prop :=
  s.starvationThreshold < now - (s.aging task).lastRunTime

instance (s : AgingState) (now : BitVec 64) : DecidablePred (Starving s now) :=
  fun _ => inferInstanceAs (Decidable (_ < _))

/-- `fairness_ctx.starvation_threshold / 10` -/
def starvationBoost (s : AgingState) : ℕ := s.starvationThreshold.toNat / 10

def boostTask (now : BitVec 64) (s : AgingState) (task : ℕ) : AgingState :=
  if Starving s now task then
    let s := s.setAging task
      { s.aging task with
        starvationCount := (s.aging task).starvationCount + 1, starving := true, boosted := true }
    let s := s.lower task (starvationBoost s)
    { s with starvationPrevented := s.starvationPrevented + 1 }
  else s

def fairnessBoostStarvingTasks (k : ℕ) (s : AgingState) (rq : ℕ) (now : BitVec 64) : Option AgingState :=
  if rq = 0 then some s else forEachTask (boostTask now) k rq s

/-! What the calls do to the virtual runtimes. -/

variable {s s' : AgingState} {rq k x y b : ℕ} {T : RbTree ℕ} {now : BitVec 64} {C : ℕ → Prop}

/-- The queue is a search tree of the nodes of `T`, and its leftmost one is a task of minimum virtual
runtime. -/
structure InOrder (s : AgingState) (rq : ℕ) (T : RbTree ℕ) : Prop where
  linked : Rb.Linked (s.tree rq) T
  sorted : T.toList.Pairwise fun x y => s.vruntime x ≤ s.vruntime y
  leftmost : T ≠ .nil → (s.rq rq).rbLeftmost ∈ T.toList ∧
    ∀ x ∈ T.toList, s.vruntime (s.rq rq).rbLeftmost ≤ s.vruntime x

def KeepsOrder (s : AgingState) (rq : ℕ) (T : RbTree ℕ) (r : Option AgingState) : Prop :=
  ∃ s', r = some s' ∧ InOrder s' rq T ∧ ∀ x, s'.vruntime x ≤ s.vruntime x

/-- The tasks of `C` have enough virtual runtime for the boost `b`, and those that come before them, or are
the leftmost one, and stay as they are, have less by `b`. -/
structure Lowerable (s : AgingState) (rq : ℕ) (T : RbTree ℕ) (C : ℕ → Prop) (b : ℕ) : Prop where
  enough : ∀ z ∈ T.toList, C z → b ≤ s.vruntime z
  apart : T.toList.Pairwise fun x z => ¬C x → C z → s.vruntime x + b ≤ s.vruntime z
  leftmost : T ≠ .nil → ¬C (s.rq rq).rbLeftmost →
    ∀ z ∈ T.toList, C z → s.vruntime (s.rq rq).rbLeftmost + b ≤ s.vruntime z

theorem lowered_le_iff {v b : ℕ} (hv : v < 2 ^ 64) (hb : b < 2 ^ 64) : lowered v b ≤ v ↔ b ≤ v := by
  unfold lowered
  omega

theorem lowered_eq {v b : ℕ} (hv : v < 2 ^ 64) (hb : b ≤ v) : lowered v b = v - b := by
  unfold lowered
  omega

/-- A loop body that lowers the virtual runtime of the tasks in `C`, each on its own. -/
structure LowersOne (body : AgingState → ℕ → AgingState) (C : AgingState → ℕ → Prop)
    (b : AgingState → ℕ) : Prop where
  tree : ∀ s x r, (body s x).tree r = s.tree r
  rq : ∀ s x, (body s x).rq = s.rq
  boost : ∀ s x, b (body s x) = b s
  lowers : ∀ s x, C s x → (body s x).vruntime x = lowered (s.vruntime x) (b s)
  keeps : ∀ s x, ¬C s x → (body s x).vruntime x = s.vruntime x
  other : ∀ s x y, y ≠ x → (body s x).vruntime y = s.vruntime y ∧ (C (body s x) y ↔ C s y)

theorem ageTask_lowersOne (now : BitVec 64) : LowersOne (ageTask now)
    (fun s x => (s.aging x).age < fairnessMaxAge) (fun _ => fairnessAgeBoost) where
  tree s x r := by
    unfold ageTask
    split <;> rfl
  rq s x := by
    unfold ageTask
    split <;> rfl
  boost _ _ := rfl
  lowers s x h := by
    rw [ageTask, if_pos h]
    exact AgingState.lower_vruntime_self ..
  keeps s x h := by rw [ageTask, if_neg h]
  other s x y h := by
    unfold ageTask
    split
    · refine ⟨AgingState.lower_vruntime_of_ne _ h _, ?_⟩
      rw [AgingState.lower_aging, AgingState.setAging_aging_of_ne _ h]
    · exact ⟨rfl, Iff.rfl⟩

theorem boostTask_lowersOne (now : BitVec 64) : LowersOne (boostTask now)
    (fun s x => Starving s now x) starvationBoost where
  tree s x r := by
    unfold boostTask
    split <;> rfl
  rq s x := by
    unfold boostTask
    split <;> rfl
  boost s x := by
    unfold boostTask
    split <;> rfl
  lowers s x h := by
    rw [boostTask, if_pos h]
    exact AgingState.lower_vruntime_self ..
  keeps s x h := by rw [boostTask, if_neg h]
  other s x y h := by
    unfold boostTask
    split
    · refine ⟨AgingState.lower_vruntime_of_ne _ h _, ?_⟩
      have hsame := AgingState.setAging_aging_of_ne s h { s.aging x with
        starvationCount := (s.aging x).starvationCount + 1, starving := true, boosted := true }
      exact iff_of_eq (congrArg (fun a : TaskAging => s.starvationThreshold < now - a.lastRunTime) hsame)
    · exact ⟨rfl, Iff.rfl⟩

namespace LowersOne

variable {body : AgingState → ℕ → AgingState} {D : AgingState → ℕ → Prop} {boost : AgingState → ℕ}
  {l : List ℕ}

theorem foldl_frame (h : LowersOne body D boost) : (l.foldl body s).tree rq = s.tree rq ∧
    (l.foldl body s).rq = s.rq := by
  induction l generalizing s with
  | nil => exact ⟨rfl, rfl⟩
  | cons x l ih =>
    rw [List.foldl_cons]
    exact ⟨ih.1.trans (h.tree s x rq), ih.2.trans (h.rq s x)⟩

theorem foldl_of_notMem (h : LowersOne body D boost) (hy : y ∉ l) :
    (l.foldl body s).vruntime y = s.vruntime y := by
  induction l generalizing s with
  | nil => rfl
  | cons x l ih =>
    rw [List.mem_cons, not_or] at hy
    obtain ⟨hne, hy⟩ := hy
    rw [List.foldl_cons, ih hy]
    exact (h.other s x y hne).1

theorem foldl_of_mem (h : LowersOne body D boost) (hl : l.Nodup) (hy : y ∈ l) :
    (D s y → (l.foldl body s).vruntime y = lowered (s.vruntime y) (boost s)) ∧
      (¬D s y → (l.foldl body s).vruntime y = s.vruntime y) := by
  induction l generalizing s with
  | nil => exact absurd hy List.not_mem_nil
  | cons x l ih =>
    obtain ⟨hx, hl⟩ := List.nodup_cons.mp hl
    rw [List.foldl_cons]
    rcases List.mem_cons.mp hy with rfl | hy
    · rw [h.foldl_of_notMem hx]
      exact ⟨h.lowers s y, h.keeps s y⟩
    · obtain ⟨hsame, hD⟩ := h.other s x y (ne_of_mem_of_not_mem hy hx)
      rw [← hD, ← hsame, ← h.boost s x]
      exact ih hl hy

end LowersOne

theorem keepsOrder_iff {body : AgingState → ℕ → AgingState} {D : AgingState → ℕ → Prop}
    {boost : AgingState → ℕ} (h : LowersOne body D boost) (hs : InOrder s rq T)
    (h64 : ∀ x, s.vruntime x < 2 ^ 64) (hb : boost s < 2 ^ 64) :
    InOrder (T.toList.foldl body s) rq T ∧ (∀ x, (T.toList.foldl body s).vruntime x ≤ s.vruntime x) ↔
      Lowerable s rq T (D s) (boost s) := by
  obtain ⟨htree, hrq⟩ : (T.toList.foldl body s).tree rq = s.tree rq ∧ (T.toList.foldl body s).rq = s.rq :=
    h.foldl_frame
  have hmem {x : ℕ} (hx : x ∈ T.toList) := h.foldl_of_mem (s := s) hs.linked.nodup hx
  have hnot {x : ℕ} (hx : x ∉ T.toList) := h.foldl_of_notMem (s := s) hx
  generalize T.toList.foldl body s = s' at htree hrq hmem hnot
  have hle : (∀ x, s'.vruntime x ≤ s.vruntime x) ↔ ∀ z ∈ T.toList, D s z → boost s ≤ s.vruntime z := by
    constructor
    · intro hle z hz hD
      rw [← lowered_le_iff (h64 z) hb, ← (hmem hz).1 hD]
      exact hle z
    · intro henough x
      by_cases hx : x ∈ T.toList
      · by_cases hD : D s x
        · rw [(hmem hx).1 hD]
          exact (lowered_le_iff (h64 x) hb).mpr (henough x hx hD)
        · exact ((hmem hx).2 hD).le
      · exact (hnot hx).le
  -- two tasks stay in order just when the second one is not lowered below the first
  have hpair (henough : ∀ z ∈ T.toList, D s z → boost s ≤ s.vruntime z) {x z : ℕ} (hx : x ∈ T.toList)
      (hz : z ∈ T.toList) (hxz : s.vruntime x ≤ s.vruntime z) : s'.vruntime x ≤ s'.vruntime z ↔
        (¬D s x → D s z → s.vruntime x + boost s ≤ s.vruntime z) := by
    by_cases hDx : D s x
    · have hx' := lowered_eq (h64 x) (henough x hx hDx)
      rw [(hmem hx).1 hDx, hx']
      by_cases hDz : D s z
      · rw [(hmem hz).1 hDz, lowered_eq (h64 z) (henough z hz hDz)]
        exact iff_of_true (by omega) fun h => absurd hDx h
      · rw [(hmem hz).2 hDz]
        exact iff_of_true (by omega) fun h => absurd hDx h
    · rw [(hmem hx).2 hDx]
      by_cases hDz : D s z
      · have := henough z hz hDz
        rw [(hmem hz).1 hDz, lowered_eq (h64 z) this]
        constructor
        · intro hle _ _
          omega
        · intro himp
          have := himp hDx hDz
          omega
      · rw [(hmem hz).2 hDz]
        exact iff_of_true hxz fun _ h => absurd h hDz
  constructor
  · rintro ⟨hok, hless⟩
    have henough := hle.mp hless
    refine ⟨henough, ?_, fun hne hD z hz hDz => ?_⟩
    · refine (hs.sorted.and hok.sorted).imp_of_mem fun {x z} hx hz hxz => ?_
      exact (hpair henough hx hz hxz.1).mp hxz.2
    · obtain ⟨hin, hmin⟩ := hs.leftmost hne
      have hmin' := (hok.leftmost hne).2 z hz
      rw [hrq] at hmin'
      exact (hpair henough hin hz (hmin z hz)).mp hmin' hD hDz
  · rintro ⟨henough, hapart, hleft⟩
    refine ⟨⟨htree ▸ hs.linked, ?_, fun hne => ?_⟩, hle.mpr henough⟩
    · refine (hs.sorted.and hapart).imp_of_mem fun {x z} hx hz hxz => ?_
      exact (hpair henough hx hz hxz.1).mpr hxz.2
    · obtain ⟨hin, hmin⟩ := hs.leftmost hne
      rw [hrq]
      exact ⟨hin, fun z hz => (hpair henough hin hz (hmin z hz)).mpr fun hD => hleft hne hD z hz⟩

theorem forEachTask_eq {body : AgingState → ℕ → AgingState} (hbody : ∀ s x, (body s x).tree rq = s.tree rq)
    (h : Rb.Linked (s.tree rq) T) (hk : T.size < k) :
    forEachTask body k rq s = some (T.toList.foldl body s) := by
  have hfirst : rbFirst k (s.tree rq) = some (T.toList.headD 0) := by
    unfold rbFirst
    rw [h.root]
    by_cases hT : T = .nil
    · rw [hT]
      rfl
    · rw [if_neg (h.hangs.root_ne_zero hT), h.hangs.leftmost hT hk.le]
  unfold forEachTask
  rw [hfirst, Option.bind_some]
  have hlist : T.toList = [] ++ T.toList := rfl
  have hlen : T.toList.length < k := by rwa [RbTree.length_toList]
  exact @Rb.walk_eq _ (fun s : AgingState => s.tree rq) _ _ _ _ _ hbody h hk.le _ _ hlist hlen

theorem fairnessAgeTasks_iff (hrq : rq ≠ 0) (hs : InOrder s rq T) (h64 : ∀ x, s.vruntime x < 2 ^ 64)
    (hk : T.size < k) (now : BitVec 64) : KeepsOrder s rq T (fairnessAgeTasks k s rq now) ↔
      TooEarly s rq now ∨
        Lowerable s rq T (fun x => (s.aging x).age < fairnessMaxAge) fairnessAgeBoost := by
  have hlowers := ageTask_lowersOne now
  unfold fairnessAgeTasks
  rw [if_neg hrq]
  split
  · next hearly => exact iff_of_true ⟨s, rfl, hs, fun _ => le_rfl⟩ (.inl hearly)
  · next hearly =>
    rw [or_iff_right hearly]
    generalize hs₁ : { s with lastAgingTime := Function.update s.lastAgingTime rq now } = s₁
    have hs' : InOrder s₁ rq T := by
      rw [← hs₁]
      exact ⟨hs.linked, hs.sorted, hs.leftmost⟩
    have hiff := keepsOrder_iff hlowers hs' (by rw [← hs₁]; exact h64) (by decide)
    dsimp only
    rw [forEachTask_eq (fun s x => hlowers.tree s x rq) hs'.linked hk]
    rw [← hs₁] at hiff ⊢
    have hsame : Lowerable s rq T (fun x => (s.aging x).age < fairnessMaxAge) fairnessAgeBoost ↔
        Lowerable { s with lastAgingTime := Function.update s.lastAgingTime rq now } rq T
          (fun x => (s.aging x).age < fairnessMaxAge) fairnessAgeBoost :=
      ⟨fun h => ⟨h.enough, h.apart, h.leftmost⟩, fun h => ⟨h.enough, h.apart, h.leftmost⟩⟩
    rw [hsame]
    refine Iff.trans ⟨?_, ?_⟩ hiff
    · rintro ⟨s', hs', hok, hless⟩
      obtain rfl := Option.some.inj hs'
      exact ⟨⟨hok.linked, hok.sorted, hok.leftmost⟩, hless⟩
    · rintro ⟨hok, hless⟩
      exact ⟨_, rfl, ⟨hok.linked, hok.sorted, hok.leftmost⟩, hless⟩

theorem fairnessBoostStarvingTasks_iff (hrq : rq ≠ 0) (hs : InOrder s rq T)
    (h64 : ∀ x, s.vruntime x < 2 ^ 64) (hk : T.size < k) (now : BitVec 64) :
    KeepsOrder s rq T (fairnessBoostStarvingTasks k s rq now) ↔
      Lowerable s rq T (Starving s now) (starvationBoost s) := by
  have hlowers := boostTask_lowersOne now
  have hb : starvationBoost s < 2 ^ 64 := by
    have := s.starvationThreshold.isLt
    unfold starvationBoost
    omega
  unfold fairnessBoostStarvingTasks
  rw [if_neg hrq, forEachTask_eq (fun s x => hlowers.tree s x rq) hs.linked hk,
    ← keepsOrder_iff hlowers hs h64 hb]
  constructor
  · rintro ⟨s', hs', hok⟩
    obtain rfl := Option.some.inj hs'
    exact hok
  · exact fun hok => ⟨_, rfl, hok⟩

/-- Aging and boosting keep the queue in order just when the tasks that they lower have enough to lower and
those before them that they leave alone have less by the boost. -/
theorem aging_keeps_order_iff (hrq : rq ≠ 0) (hs : InOrder s rq T) (h64 : ∀ x, s.vruntime x < 2 ^ 64)
    (hk : T.size < k) (now : BitVec 64) :
    (KeepsOrder s rq T (fairnessAgeTasks k s rq now) ↔ TooEarly s rq now ∨
      Lowerable s rq T (fun x => (s.aging x).age < fairnessMaxAge) fairnessAgeBoost) ∧
    (KeepsOrder s rq T (fairnessBoostStarvingTasks k s rq now) ↔
      Lowerable s rq T (Starving s now) (starvationBoost s)) :=
  ⟨fairnessAgeTasks_iff hrq hs h64 hk now, fairnessBoostStarvingTasks_iff hrq hs h64 hk now⟩

def threeTasks (vruntime : List ℕ) (age : List ℤ) : AgingState where
  child
    | .left, x => [0, 0, 1, 0].getD x 0
    | .right, x => [0, 0, 3, 0].getD x 0
  parent x := [0, 2, 0, 2].getD x 0
  red _ := false
  task x := freshTask (vruntime.getD x 0) 1
  rq _ := { rbRoot := 2, rbLeftmost := 1, minVruntime := 0, runnableLoad := 0, nrRunning := 3 }
  nrCpus := 1
  totalTasks := 3
  migrations := 0
  aging x := ⟨age.getD x 0, 0, 0, 0, false, false, false⟩
  lastAgingTime _ := 0
  agingInterval := 100
  starvationThreshold := 5000
  agingOperations := 0
  starvationPrevented := 0

def threeTree : RbTree ℕ := .node false (.node false .nil 1 .nil) 2 (.node false .nil 3 .nil)

theorem threeTasks_inOrder {v : List ℕ} (a : List ℤ)
    (hsorted : v.getD 1 0 ≤ v.getD 2 0 ∧ v.getD 2 0 ≤ v.getD 3 0) : InOrder (threeTasks v a) 1 threeTree where
  linked := ⟨by simp [threeTree, threeTasks, Fairness.tree, Rb.Hangs, RbTree.root], rfl, by decide⟩
  sorted := by
    simp only [threeTree, RbTree.toList, threeTasks, Fairness.vruntime, freshTask, List.nil_append,
      List.cons_append, List.pairwise_cons, List.mem_cons, List.not_mem_nil]
    simp only [or_false, forall_eq_or_imp, forall_eq, false_imp_iff, implies_true, List.Pairwise.nil,
      and_true]
    omega
  leftmost _ := by
    refine ⟨by simp [threeTree, threeTasks, RbTree.toList], ?_⟩
    simp only [threeTree, RbTree.toList, threeTasks, Fairness.vruntime, freshTask, List.nil_append,
      List.cons_append, List.mem_cons, List.not_mem_nil, or_false, forall_eq_or_imp, forall_eq]
    omega

theorem threeTasks_vruntime_lt {v : List ℕ} {a : List ℤ} (h : ∀ x ∈ v, x < 2 ^ 64) (x : ℕ) :
    (threeTasks v a).vruntime x < 2 ^ 64 := by
  change v.getD x 0 < 2 ^ 64
  rw [List.getD_eq_getElem?_getD]
  cases hx : v[x]? with
  | none => exact Nat.two_pow_pos 64
  | some y => exact h y (List.mem_of_getElem? hx)

theorem aging_keeps_order_iff_apart :
    KeepsOrder (threeTasks [0, 10, 20, 21] [0, 0, 10, 0]) 1 threeTree
      (fairnessAgeTasks 4 (threeTasks [0, 10, 20, 21] [0, 0, 10, 0]) 1 100) := by
  refine (aging_keeps_order_iff (by decide) (threeTasks_inOrder _ (by decide))
    (threeTasks_vruntime_lt (by decide)) (by decide) 100).1.mpr (.inr ⟨by decide, ?_, fun _ => by decide⟩)
  simp [threeTree, threeTasks, RbTree.toList, Fairness.vruntime, freshTask, fairnessMaxAge, fairnessAgeBoost]

/-- Two tasks with the same virtual runtime, of which only the second one ages; and a task with none left to
lower. -/
theorem aging_loses_order :
    (InOrder (threeTasks [0, 10, 20, 20] [0, 0, 10, 0]) 1 threeTree ∧
      ¬KeepsOrder (threeTasks [0, 10, 20, 20] [0, 0, 10, 0]) 1 threeTree
        (fairnessAgeTasks 4 (threeTasks [0, 10, 20, 20] [0, 0, 10, 0]) 1 100)) ∧
    InOrder (threeTasks [0, 400, 500, 600] []) 1 threeTree ∧
      ¬KeepsOrder (threeTasks [0, 400, 500, 600] []) 1 threeTree
        (fairnessBoostStarvingTasks 4 (threeTasks [0, 400, 500, 600] []) 1 6000) := by
  have h₁ := threeTasks_inOrder (v := [0, 10, 20, 20]) [0, 0, 10, 0] (by decide)
  have h₂ := threeTasks_inOrder (v := [0, 400, 500, 600]) [] (by decide)
  refine ⟨⟨h₁, ?_⟩, h₂, ?_⟩
  · rw [fairnessAgeTasks_iff (by decide) h₁ (threeTasks_vruntime_lt (by decide)) (by decide)]
    rintro (hearly | hlow)
    · exact absurd hearly (by decide)
    · have hapart := hlow.apart
      simp [threeTree, threeTasks, RbTree.toList, Fairness.vruntime, freshTask, fairnessMaxAge,
        fairnessAgeBoost] at hapart
  · rw [fairnessBoostStarvingTasks_iff (by decide) h₂ (threeTasks_vruntime_lt (by decide)) (by decide)]
    intro hlow
    exact absurd (hlow.enough 1 (by decide) (by decide)) (by decide)

end GcAos.Sched
