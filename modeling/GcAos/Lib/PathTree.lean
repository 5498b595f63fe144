import Mathlib.Data.Finset.Card
import Mathlib.Tactic

/-! Nodes reached from a root along paths of indices, where `child` gives the node below another
one. A `Separated` tree has no node on two paths, so that a change below one node is seen along
one path only. -/

namespace GcAos.Lib

variable {N I : Type*} {child child' : N → I → Option N} {root t n m : N} {i : I} {d : ℕ}
  {pre p q : List I}

def resolve (child : N → I → Option N) : N → List I → Option N
  | t, [] => some t
  | t, i :: p => (child t i).bind fun u => resolve child u p

theorem resolve_append (t : N) (p q : List I) :
    resolve child t (p ++ q) = (resolve child t p).bind fun u => resolve child u q := by
  induction p generalizing t with
  | nil => rfl
  | cons i p ih =>
    simp only [List.cons_append, resolve, Option.bind_assoc]
    exact congrArg _ (funext ih)

theorem resolve_snoc (t : N) (p : List I) (i : I) :
    resolve child t (p ++ [i]) = (resolve child t p).bind fun u => child u i := by
  rw [resolve_append]
  simp [resolve]

/-- Paths of at most `d` indices lead to different nodes. -/
def Separated (child : N → I → Option N) (root : N) (d : ℕ) : Prop :=
  ∀ p q n, p.length ≤ d → q.length ≤ d →
    resolve child root p = some n → resolve child root q = some n → p = q

theorem resolve_congr
    (h : ∀ q m i, q.length < d → resolve child root q = some m → child' m i = child m i)
    (hp : p.length ≤ d) : resolve child' root p = resolve child root p := by
  induction p using List.reverseRecOn with
  | nil => rfl
  | append_singleton p j ih =>
    rw [List.length_append, List.length_singleton] at hp
    rw [resolve_snoc, resolve_snoc, ih (by omega)]
    cases hm : resolve child root p with
    | none => rfl
    | some m => exact h p m j (by omega) hm

theorem resolve_mono
    (h : ∀ pre i suf m c, p = pre ++ i :: suf → resolve child root pre = some m →
      child m i = some c → child' m i = some c)
    (hp : resolve child root p = some n) : resolve child' root p = some n := by
  induction p using List.reverseRecOn generalizing n with
  | nil => exact hp
  | append_singleton p i ih =>
    rw [resolve_snoc] at hp
    obtain ⟨m, hm, hc⟩ := Option.bind_eq_some_iff.mp hp
    have hm' : resolve child' root p = some m := by
      refine ih (fun pre j suf b c heq hb hbc => ?_) hm
      exact h pre j (suf ++ [i]) b c (by rw [heq, List.append_assoc]; rfl) hb hbc
    rw [resolve_snoc, hm']
    exact h p i [] m n rfl hm hc

theorem Separated.congr (hsep : Separated child root d)
    (h : ∀ q m i, q.length < d → resolve child root q = some m → child' m i = child m i) :
    Separated child' root d := by
  intro p q m hp hq hpm hqm
  rw [resolve_congr h hp] at hpm
  rw [resolve_congr h hq] at hqm
  exact hsep p q m hp hq hpm hqm

/-- A fresh node `n` without children is hung below `t`: the path to it is the one new path. -/
structure Graft (child child' : N → I → Option N) (root : N) (d : ℕ) (pre : List I) (t : N) (i : I)
    (n : N) : Prop where
  at_pre : resolve child root pre = some t
  depth : pre.length < d
  vacant : child t i = none
  fresh : ∀ q, q.length ≤ d → resolve child root q ≠ some n
  new : child' t i = some n
  empty : ∀ j, child' n j = none
  old : ∀ q m j, q.length < d → resolve child root q = some m → m ≠ t ∨ j ≠ i →
    child' m j = child m j

namespace Graft

theorem resolve_eq [DecidableEq I] (hsep : Separated child root d)
    (hg : Graft child child' root d pre t i n) (hq : q.length ≤ d) :
    resolve child' root q = if q = pre ++ [i] then some n else resolve child root q := by
  induction q using List.reverseRecOn with
  | nil => simp [resolve]
  | append_singleton q j ih =>
    rw [List.length_append, List.length_singleton] at hq
    rw [resolve_snoc, ih (by omega), resolve_snoc]
    by_cases hnew : q = pre ++ [i]
    · -- below the new node there is nothing, neither now nor before
      have hold : resolve child root q = none := by
        rw [hnew, resolve_snoc, hg.at_pre]
        exact hg.vacant
      have hlen : q ++ [j] ≠ pre ++ [i] := by
        intro h
        have := congrArg List.length h
        simp [hnew] at this
      rw [if_pos hnew, if_neg hlen, hold]
      exact hg.empty j
    · rw [if_neg hnew]
      cases hm : resolve child root q with
      | none =>
        have hne : q ++ [j] ≠ pre ++ [i] := by
          intro h
          rw [(List.append_inj' h rfl).1, hg.at_pre] at hm
          exact absurd hm (by simp)
        rw [if_neg hne]
        rfl
      | some m =>
        by_cases hedge : q ++ [j] = pre ++ [i]
        · obtain ⟨hqp, hji⟩ := List.append_inj' hedge rfl
          rw [hqp, hg.at_pre] at hm
          obtain rfl := Option.some.inj hm
          rw [if_pos hedge, List.singleton_inj.mp hji]
          exact hg.new
        · have hmj : m ≠ t ∨ j ≠ i := by
            by_contra hcon
            push Not at hcon
            obtain ⟨rfl, rfl⟩ := hcon
            have hpre := hg.depth
            exact hedge (by rw [hsep q pre m (by omega) (by omega) hm hg.at_pre])
          rw [if_neg hedge]
          exact hg.old q m j (by omega) hm hmj

theorem resolve_new [DecidableEq I] (hsep : Separated child root d)
    (hg : Graft child child' root d pre t i n) : resolve child' root (pre ++ [i]) = some n := by
  have hlen : (pre ++ [i]).length ≤ d := by
    have := hg.depth
    simpa using this
  rw [hg.resolve_eq hsep hlen, if_pos rfl]

theorem cases [DecidableEq I] (hsep : Separated child root d)
    (hg : Graft child child' root d pre t i n) (hq : q.length ≤ d)
    (h : resolve child' root q = some m) :
    (q = pre ++ [i] ∧ m = n) ∨ (q ≠ pre ++ [i] ∧ resolve child root q = some m) := by
  rw [hg.resolve_eq hsep hq] at h
  split at h
  · exact .inl ⟨‹_›, (Option.some.inj h).symm⟩
  · exact .inr ⟨‹_›, h⟩

theorem separated [DecidableEq I] (hsep : Separated child root d)
    (hg : Graft child child' root d pre t i n) : Separated child' root d := by
  intro p q m hp hq hpm hqm
  rcases hg.cases hsep hp hpm with ⟨hp', rfl⟩ | ⟨-, hp'⟩
  · rcases hg.cases hsep hq hqm with ⟨hq', -⟩ | ⟨-, hq'⟩
    · rw [hp', hq']
    · exact absurd hq' (hg.fresh q hq)
  · rcases hg.cases hsep hq hqm with ⟨-, rfl⟩ | ⟨-, hq'⟩
    · exact absurd hp' (hg.fresh p hp)
    · exact hsep p q m hp hq hp' hq'

theorem eq_none_iff [DecidableEq I] (hsep : Separated child root d)
    (hg : Graft child child' root d pre t i n) (hq : q.length ≤ d) :
    resolve child' root q = none ↔ resolve child root q = none ∧ q ≠ pre ++ [i] := by
  rw [hg.resolve_eq hsep hq]
  split
  · next hnew => exact iff_of_false (fun h => by cases h) fun h => h.2 hnew
  · next hnew => exact ⟨fun h => ⟨h, hnew⟩, fun h => h.1⟩

end Graft

section Steps
variable [DecidableEq I]

/-- The paths from `pre` down along `p`, without `pre`. -/
def pathSteps (pre : List I) : List I → Finset (List I)
  | [] => ∅
  | i :: p => insert (pre ++ [i]) (pathSteps (pre ++ [i]) p)

theorem length_of_mem_pathSteps (h : q ∈ pathSteps pre p) :
    pre.length < q.length ∧ q.length ≤ pre.length + p.length := by
  induction p generalizing pre with
  | nil => exact absurd h (Finset.notMem_empty q)
  | cons i p ih =>
    have hlen : (pre ++ [i]).length = pre.length + 1 := by simp
    rw [List.length_cons]
    rcases Finset.mem_insert.mp h with rfl | h
    · omega
    · have := ih h
      omega

def missing (child : N → I → Option N) (root : N) (steps : Finset (List I)) : Finset (List I) :=
  steps.filter fun q => resolve child root q = none

theorem missing_pathSteps_some (h : resolve child root (pre ++ [i]) = some n) :
    missing child root (pathSteps pre (i :: p)) = missing child root (pathSteps (pre ++ [i]) p) := by
  rw [missing, pathSteps, Finset.filter_insert, if_neg (by simp [h]), missing]

theorem missing_pathSteps_pos (h : resolve child root (pre ++ [i]) = none) :
    0 < (missing child root (pathSteps pre (i :: p))).card :=
  Finset.card_pos.mpr ⟨_, Finset.mem_filter.mpr ⟨Finset.mem_insert_self _ _, h⟩⟩

theorem card_missing_union {a b : Finset (List I)}
    (h : ∀ q ∈ b, resolve child' root q = none ↔ resolve child root q = none ∧ q ∉ a) :
    (missing child root (a ∪ b)).card = (missing child root a).card + (missing child' root b).card := by
  have hunion : missing child root (a ∪ b) = missing child root a ∪ missing child' root b := by
    ext q
    simp only [missing, Finset.mem_filter, Finset.mem_union]
    constructor
    · rintro ⟨hq, hnone⟩
      by_cases hqa : q ∈ a
      · exact .inl ⟨hqa, hnone⟩
      · have hqb := hq.resolve_left hqa
        exact .inr ⟨hqb, (h q hqb).mpr ⟨hnone, hqa⟩⟩
    · rintro (⟨hqa, hnone⟩ | ⟨hqb, hnone⟩)
      · exact ⟨.inl hqa, hnone⟩
      · exact ⟨.inr hqb, ((h q hqb).mp hnone).1⟩
  rw [hunion, Finset.card_union_of_disjoint]
  refine Finset.disjoint_left.mpr fun q hqa hqb => ?_
  obtain ⟨hqb, hnone⟩ := Finset.mem_filter.mp hqb
  exact ((h q hqb).mp hnone).2 (Finset.mem_filter.mp hqa).1

theorem Graft.card_missing (hsep : Separated child root d)
    (hg : Graft child child' root d pre t i n) (hp : pre.length + (i :: p).length ≤ d) :
    (missing child root (pathSteps pre (i :: p))).card =
      1 + (missing child' root (pathSteps (pre ++ [i]) p)).card := by
  have hfirst : resolve child root (pre ++ [i]) = none := by
    rw [resolve_snoc, hg.at_pre]
    exact hg.vacant
  have hone : missing child root {pre ++ [i]} = {pre ++ [i]} := Finset.filter_true_of_mem (by simp [hfirst])
  rw [pathSteps, Finset.insert_eq, card_missing_union, hone, Finset.card_singleton]
  intro q hq
  have hlen := (length_of_mem_pathSteps hq).2
  rw [List.length_append, List.length_singleton] at hlen
  rw [List.length_cons] at hp
  rw [hg.eq_none_iff hsep (by omega), Finset.mem_singleton]

end Steps

end GcAos.Lib
