import GcAos.Lib.Exec
import Mathlib.Data.List.Induction
import Mathlib.Tactic.Common

/-! What a run of a machine emits, and the events that a mutual exclusion lock and a bounded queue let
through. -/

namespace GcAos.Lib

variable {σ τ α ε : Type*}

/-- A run of `step` with the events that its steps emit. -/
inductive Emits (step : σ → α → Option σ) (emit : σ → α → σ → List ε) : σ → List α → List ε → σ → Prop
  | nil (s : σ) : Emits step emit s [] [] s
  | cons {s u t : σ} {a : α} {as : List α} {es : List ε} :
      step s a = some u → Emits step emit u as es t → Emits step emit s (a :: as) (emit s a u ++ es) t

namespace Emits

variable {step : σ → α → Option σ} {emit : σ → α → σ → List ε} {s t : σ} {as : List α} {es : List ε}

def trace (step : σ → α → Option σ) (emit : σ → α → σ → List ε) : σ → List α → List ε
  | _, [] => []
  | s, a :: as =>
    match step s a with
    | none => []
    | some u => emit s a u ++ trace step emit u as

theorem of_trace (emit : σ → α → σ → List ε) (h : as.foldlM step s = some t) :
    Emits step emit s as (trace step emit s as) t := by
  induction as generalizing s with
  | nil =>
    obtain rfl := Option.some.inj h
    exact .nil s
  | cons a as ih =>
    rw [List.foldlM_cons] at h
    obtain ⟨u, hu, hrest⟩ := Option.bind_eq_some_iff.mp h
    unfold trace
    rw [hu]
    exact .cons hu (ih hrest)

theorem of_foldlM (emit : σ → α → σ → List ε) (h : as.foldlM step s = some t) :
    ∃ es, Emits step emit s as es t := ⟨_, of_trace emit h⟩

/-- A machine whose every step is simulated by the events it emits: the abstract machine accepts
all that a run emits. -/
theorem simulate {next : τ → ε → Option τ} {R : σ → τ → Prop}
    (hstep : ∀ s a u o, R s o → step s a = some u → ∃ o', (emit s a u).foldlM next o = some o' ∧ R u o')
    (h : Emits step emit s as es t) {o : τ} (ho : R s o) : ∃ o', es.foldlM next o = some o' ∧ R t o' := by
  induction h generalizing o with
  | nil => exact ⟨o, rfl, ho⟩
  | @cons s u t a as es hst _ ih =>
    obtain ⟨m, hm, hR⟩ := hstep s a u o ho hst
    obtain ⟨o', ho', hR'⟩ := ih hR
    refine ⟨o', ?_, hR'⟩
    rw [List.foldlM_append, hm]
    exact ho'

/-- What has come in is what has gone out and what is on its way, `P`. -/
theorem balanced {γ : Type*} {P : σ → List γ} {into : α → List γ} {out : ε → List γ}
    (hstep : ∀ s a u, step s a = some u → P s ++ into a = (emit s a u).flatMap out ++ P u)
    (h : Emits step emit s as es t) : P s ++ as.flatMap into = es.flatMap out ++ P t := by
  induction h with
  | nil s => simp
  | @cons s u t a as es hst _ ih =>
    rw [List.flatMap_cons, ← List.append_assoc, hstep s a u hst, List.append_assoc, ih,
      List.flatMap_append, List.append_assoc]

end Emits

/-! The lock. -/

variable {ι β : Type*}

/-- What a party `ι` does with a lock, and with the data that the lock protects. -/
inductive LockEvent (ι β : Type*)
  | acquire (i : ι)
  | access (i : ι) (b : β)
  | release (i : ι)
deriving DecidableEq

namespace LockEvent

def whole (c : ι × List β) : List (LockEvent ι β) :=
  acquire c.1 :: (c.2.map (access c.1) ++ [release c.1])

def begun (bs : List β) : Option ι → List (LockEvent ι β)
  | none => []
  | some i => acquire i :: bs.map (access i)

variable [DecidableEq ι]

/-- The holder after an event; `none` where a mutual exclusion lock rules the event out. -/
def next : Option ι → LockEvent ι β → Option (Option ι)
  | none, acquire i => some (some i)
  | some j, access i _ => if i = j then some (some j) else none
  | some j, release i => if i = j then some none else none
  | _, _ => none

/-- The events that the lock lets through are whole critical sections, one after the other, and then
the one of the holder. -/
theorem serial {es : List (LockEvent ι β)} {o : Option ι} (h : es.foldlM next none = some o) :
    ∃ (done : List (ι × List β)) (bs : List β), es = done.flatMap whole ++ begun bs o := by
  induction es using List.reverseRecOn generalizing o with
  | nil =>
    obtain rfl := Option.some.inj h
    exact ⟨[], [], rfl⟩
  | append_singleton es e ih =>
    rw [List.foldlM_append] at h
    obtain ⟨m, hm, hlast⟩ := Option.bind_eq_some_iff.mp h
    have hlast : next m e = some o := by simpa using hlast
    obtain ⟨done, bs, rfl⟩ := ih hm
    match m, e, hlast with
    | none, acquire i, hlast =>
      obtain rfl := Option.some.inj hlast
      exact ⟨done, [], by simp [begun]⟩
    | some j, access i b, hlast =>
      obtain ⟨rfl, ho⟩ := Option.ite_none_right_eq_some.mp hlast
      obtain rfl := Option.some.inj ho
      exact ⟨done, bs ++ [b], by simp [begun]⟩
    | some j, release i, hlast =>
      obtain ⟨rfl, ho⟩ := Option.ite_none_right_eq_some.mp hlast
      obtain rfl := Option.some.inj ho
      exact ⟨done ++ [(i, bs)], [], by simp [begun, whole]⟩

end LockEvent

/-! The queue. -/

/-- What happens to a queue; `full` turns an element away, and `empty` is a failed attempt to get one. -/
inductive FifoEvent (α : Type*)
  | put (a : α)
  | got (a : α)
  | full (a : α)
  | empty
deriving DecidableEq

namespace FifoEvent

def next [DecidableEq α] (cap : ℕ) (q : List α) : FifoEvent α → Option (List α)
  | put a => if q.length < cap then some (q ++ [a]) else none
  | got a =>
    match q with
    | [] => none
    | b :: q => if a = b then some q else none
  | full _ => if q.length = cap then some q else none
  | empty => if q = [] then some q else none

def puts (es : List (FifoEvent α)) : List α :=
  es.filterMap fun
    | put a => some a
    | _ => none

def gots (es : List (FifoEvent α)) : List α :=
  es.filterMap fun
    | got a => some a
    | _ => none

def offered : FifoEvent α → List α
  | put a | full a => [a]
  | _ => []

/-- One mark for each attempt to get an element. -/
def tried : FifoEvent α → List Unit
  | got _ | empty => [()]
  | _ => []

@[simp] theorem puts_append (es fs : List (FifoEvent α)) : puts (es ++ fs) = puts es ++ puts fs :=
  List.filterMap_append

@[simp] theorem gots_append (es fs : List (FifoEvent α)) : gots (es ++ fs) = gots es ++ gots fs :=
  List.filterMap_append

variable [DecidableEq α] {cap : ℕ} {q q' : List α} {es : List (FifoEvent α)} {e : FifoEvent α}

theorem next_cases (h : next cap q e = some q') :
    (∃ a, e = put a ∧ q.length < cap ∧ q' = q ++ [a]) ∨ (∃ a, e = got a ∧ q = a :: q') ∨
      (puts [e] = [] ∧ gots [e] = [] ∧ q' = q) := by
  cases e with
  | put a =>
    obtain ⟨hlt, h⟩ := Option.ite_none_right_eq_some.mp h
    exact .inl ⟨a, rfl, hlt, (Option.some.inj h).symm⟩
  | got a =>
    cases q with
    | nil => cases h
    | cons b q =>
      obtain ⟨rfl, hq⟩ := Option.ite_none_right_eq_some.mp h
      exact .inr (.inl ⟨a, rfl, by rw [Option.some.inj hq]⟩)
  | full a =>
    obtain ⟨-, h⟩ := Option.ite_none_right_eq_some.mp h
    exact .inr (.inr ⟨rfl, rfl, (Option.some.inj h).symm⟩)
  | empty =>
    obtain ⟨-, h⟩ := Option.ite_none_right_eq_some.mp h
    exact .inr (.inr ⟨rfl, rfl, (Option.some.inj h).symm⟩)

theorem next_eq (h : next cap q e = some q') : q ++ puts [e] = gots [e] ++ q' := by
  obtain ⟨a, rfl, -, rfl⟩ | ⟨a, rfl, rfl⟩ | ⟨hputs, hgots, rfl⟩ := next_cases h
  · rfl
  · simp [puts, gots]
  · rw [hputs, hgots, List.append_nil, List.nil_append]

theorem next_length (h : next cap q e = some q') (hq : q.length ≤ cap) : q'.length ≤ cap := by
  obtain ⟨a, -, hlt, rfl⟩ | ⟨a, -, rfl⟩ | ⟨-, -, rfl⟩ := next_cases h
  · rw [List.length_append]
    exact hlt
  · exact Nat.le_of_succ_le hq
  · exact hq

/-- Nothing is lost, repeated or reordered: what has gone in is what has come out and what is left. -/
theorem conserved (h : es.foldlM (next cap) q = some q') : q ++ puts es = gots es ++ q' := by
  induction es generalizing q with
  | nil =>
    obtain rfl := Option.some.inj h
    simp [puts, gots]
  | cons e es ih =>
    rw [List.foldlM_cons] at h
    obtain ⟨m, hm, hrest⟩ := Option.bind_eq_some_iff.mp h
    calc q ++ puts (e :: es) = (q ++ puts [e]) ++ puts es := by
          rw [← List.singleton_append, puts_append, List.append_assoc]
      _ = gots [e] ++ (m ++ puts es) := by rw [next_eq hm, List.append_assoc]
      _ = gots (e :: es) ++ q' := by
          rw [ih hrest, ← List.append_assoc, ← gots_append, List.singleton_append]

theorem length_le (h : es.foldlM (next cap) q = some q') (hq : q.length ≤ cap) : q'.length ≤ cap :=
  foldlM_invariant (I := fun q => q.length ≤ cap) (fun _ _ _ hq h => next_length h hq) h hq

theorem exists_before {before after : List (FifoEvent α)}
    (h : (before ++ e :: after).foldlM (next cap) q = some q') :
    ∃ m, before.foldlM (next cap) q = some m ∧ (next cap m e).isSome := by
  rw [List.foldlM_append] at h
  obtain ⟨m, hm, hrest⟩ := Option.bind_eq_some_iff.mp h
  rw [List.foldlM_cons] at hrest
  obtain ⟨n, hn, -⟩ := Option.bind_eq_some_iff.mp hrest
  exact ⟨m, hm, Option.isSome_iff_exists.mpr ⟨n, hn⟩⟩

theorem length_of_full {a : α} {before after : List (FifoEvent α)}
    (h : (before ++ full a :: after).foldlM (next cap) [] = some q') :
    (puts before).length = (gots before).length + cap := by
  obtain ⟨m, hm, hsome⟩ := exists_before h
  have hlen : m.length = cap := by
    by_contra hne
    simp [next, hne] at hsome
  have hall : puts before = gots before ++ m := conserved hm
  rw [hall, List.length_append, hlen]

theorem puts_of_empty {before after : List (FifoEvent α)}
    (h : (before ++ empty :: after).foldlM (next cap) [] = some q') : puts before = gots before := by
  obtain ⟨m, hm, hsome⟩ := exists_before h
  have hnil : m = [] := by
    by_contra hne
    simp [next, hne] at hsome
  have hall : puts before = gots before ++ m := conserved hm
  rwa [hnil, List.append_nil] at hall

end FifoEvent

end GcAos.Lib
