import Mathlib.Data.List.Basic

/-! Locks that are not re-entrant, as one caller takes and releases them. -/

namespace GcAos.Lib

inductive LockAct (κ : Type*)
  | lock (l : κ)
  | unlock (l : κ)

namespace LockAct

variable {κ α : Type*}

def under (l : κ) (body : List (LockAct κ)) : List (LockAct κ) := lock l :: (body ++ [unlock l])

variable [DecidableEq κ]

/-- The locks that are held afterwards. A caller that takes a lock that it holds waits forever:
`none`. -/
def run (held : List κ) : LockAct κ → Option (List κ)
  | lock l => if l ∈ held then none else some (l :: held)
  | unlock l => some (held.erase l)

def runAll (held : List κ) (acts : List (LockAct κ)) : Option (List κ) := acts.foldlM run held

def Returns (held : List κ) (acts : List (LockAct κ)) : Prop := runAll held acts = some held

def Deadlocks (held : List κ) (acts : List (LockAct κ)) : Prop := runAll held acts = none

variable {held : List κ} {l : κ} {body acts acts' : List (LockAct κ)}

theorem Returns.not_deadlocks (h : Returns held acts) : ¬Deadlocks held acts := fun hnone =>
  Option.some_ne_none held (h.symm.trans hnone)

theorem returns_nil : Returns held [] := rfl

theorem Returns.append (h : Returns held acts) (h' : Returns held acts') :
    Returns held (acts ++ acts') := by
  unfold Returns runAll at *
  rw [List.foldlM_append, h]
  exact h'

theorem Deadlocks.append (h : Deadlocks held acts) (acts' : List (LockAct κ)) :
    Deadlocks held (acts ++ acts') := by
  unfold Deadlocks runAll at *
  rw [List.foldlM_append, h]
  rfl

theorem Returns.append_deadlocks (h : Returns held acts) (h' : Deadlocks held acts') :
    Deadlocks held (acts ++ acts') := by
  unfold Returns Deadlocks runAll at *
  rw [List.foldlM_append, h]
  exact h'

theorem returns_flatMap {l : List α} {f : α → List (LockAct κ)} (h : ∀ a ∈ l, Returns held (f a)) :
    Returns held (l.flatMap f) := by
  induction l with
  | nil => exact returns_nil
  | cons a l ih =>
    rw [List.flatMap_cons]
    exact (h a List.mem_cons_self).append (ih fun b hb => h b (List.mem_cons_of_mem a hb))

theorem returns_under (hl : l ∉ held) (h : Returns (l :: held) body) : Returns held (under l body) := by
  unfold Returns runAll at *
  rw [under, List.foldlM_cons, run, if_neg hl]
  dsimp only [Option.bind_eq_bind, Option.bind_some]
  rw [List.foldlM_append, h]
  dsimp only [Option.bind_eq_bind, Option.bind_some]
  rw [List.foldlM_cons, run, List.erase_cons_head]
  rfl

theorem deadlocks_under (hl : l ∈ held) (body : List (LockAct κ)) : Deadlocks held (under l body) := by
  unfold Deadlocks runAll
  rw [under, List.foldlM_cons, run, if_pos hl]
  rfl

theorem Deadlocks.under (h : Deadlocks (l :: held) body) : Deadlocks held (under l body) := by
  by_cases hl : l ∈ held
  · exact deadlocks_under hl body
  · unfold Deadlocks runAll at *
    rw [LockAct.under, List.foldlM_cons, run, if_neg hl]
    dsimp only [Option.bind_eq_bind, Option.bind_some]
    rw [List.foldlM_append, h]
    rfl

theorem returns_section (hl : l ∉ held) : Returns held (LockAct.under l []) :=
    returns_under hl returns_nil

theorem returns_alone (l : κ) : Returns [] (LockAct.under l []) := returns_section List.not_mem_nil

theorem returns_checked (c : Prop) [Decidable c] (l : κ) :
    Returns [] (if c then [] else LockAct.under l []) := by
  split
  · exact returns_nil
  · exact returns_alone l

end LockAct

end GcAos.Lib
