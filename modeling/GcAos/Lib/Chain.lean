import Mathlib.Tactic

/-! Singly linked lists that end in a null pointer, and parent pointers that lead to a root. -/

namespace GcAos.Lib

variable {α : Type*} {nil a b t : α} {nx nx' : α → α} {l l' pre post : List α}

/-- Following `nx` from `a` visits the nodes of `l` and then ends. -/
def Chain (nil : α) (nx : α → α) : α → List α → Prop
  | a, [] => a = nil
  | a, b :: l => a = b ∧ b ≠ nil ∧ Chain nil nx (nx b) l

namespace Chain

theorem unique (h : Chain nil nx a l) (h' : Chain nil nx a l') : l = l' := by
  induction l generalizing a l' with
  | nil =>
    cases l' with
    | nil => rfl
    | cons b l' => exact absurd (h'.1.symm.trans h) h'.2.1
  | cons b l ih =>
    cases l' with
    | nil => exact absurd (h.1.symm.trans h') h.2.1
    | cons b' l' =>
      obtain ⟨rfl, -, hl⟩ := h
      obtain ⟨rfl, -, hl'⟩ := h'
      rw [ih hl hl']

theorem ne_nil (h : Chain nil nx a l) (hb : b ∈ l) : b ≠ nil := by
  induction l generalizing a with
  | nil => exact absurd hb List.not_mem_nil
  | cons c l ih =>
    rcases List.mem_cons.mp hb with rfl | hb
    · exact h.2.1
    · exact ih h.2.2 hb

theorem congr (h : Chain nil nx a l) (hnx : ∀ b ∈ l, nx' b = nx b) : Chain nil nx' a l := by
  induction l generalizing a with
  | nil => exact h
  | cons b l ih =>
    refine ⟨h.1, h.2.1, ?_⟩
    rw [hnx b List.mem_cons_self]
    exact ih h.2.2 fun c hc => hnx c (List.mem_cons_of_mem b hc)

theorem unlink (h : Chain nil nx a (pre ++ b :: t :: post)) (hb : nx' b = nx t)
    (hnx : ∀ c, c ∈ pre ++ post → nx' c = nx c) :
    Chain nil nx' a (pre ++ b :: post) := by
  induction pre generalizing a with
  | nil =>
    refine ⟨h.1, h.2.1, ?_⟩
    rw [hb]
    exact h.2.2.2.2.congr hnx
  | cons c pre ih =>
    refine ⟨h.1, h.2.1, ?_⟩
    rw [hnx c List.mem_cons_self]
    exact ih h.2.2 fun d hd => hnx d (List.mem_cons_of_mem c hd)

theorem push (h : Chain nil nx a l) (ht : t ≠ nil) (htl : t ∉ l) (hnt : nx' t = a)
    (hnx : ∀ b, b ≠ t → nx' b = nx b) : Chain nil nx' t (t :: l) := by
  refine ⟨rfl, ht, ?_⟩
  rw [hnt]
  exact h.congr fun b hb => hnx b fun hbt => htl (hbt ▸ hb)

end Chain

/-- Following `up` from a node leads to `root`. -/
inductive Reaches (up : α → α) (root : α) : α → Prop
  | root : Reaches up root root
  | step {x : α} : Reaches up root (up x) → Reaches up root x

/-- `x` is `t` or has `t` above it. -/
def Inside (up : α → α) (t x : α) : Prop := ∃ n, up^[n] x = t

namespace Reaches

variable {up up' : α → α} {root x n : α}

theorem reroute (h : Reaches up root x) (hup : ∀ y, y ≠ t → up' y = up y)
    (ht : Reaches up' root t) : Reaches up' root x := by
  induction h with
  | root => exact .root
  | @step x _ ih =>
    by_cases hx : x = t
    · rw [hx]
      exact ht
    · apply step
      rw [hup x hx]
      exact ih

theorem avoid (h : Reaches up root x) (hup : ∀ y, y ≠ t → up' y = up y)
    (hx : ¬ Inside up t x) : Reaches up' root x := by
  induction h with
  | root => exact .root
  | @step x _ ih =>
    apply step
    rw [hup x fun hxt => hx ⟨0, hxt⟩]
    apply ih
    rintro ⟨k, hk⟩
    exact hx ⟨k + 1, hk⟩

theorem transfer {P : α → Prop} (h : Reaches up root x) (hx : P x)
    (hP : ∀ y, P y → y ≠ root → P (up y) ∧ up' y = up y) : Reaches up' root x := by
  induction h with
  | root => exact .root
  | @step x _ ih =>
    by_cases hr : x = root
    · rw [hr]
      exact .root
    · obtain ⟨hup, heq⟩ := hP x hx hr
      apply step
      rw [heq]
      exact ih hup

theorem move (h : Reaches up root x) (hn : Reaches up root n) (hout : ¬ Inside up t n)
    (hup : ∀ y, y ≠ t → up' y = up y) (ht : up' t = n) : Reaches up' root x := by
  refine h.reroute hup (.step ?_)
  rw [ht]
  exact hn.avoid hup hout

end Reaches

end GcAos.Lib
