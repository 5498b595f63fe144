import GcAos.Lib.RbLinks

/-! Sets of nodes that no pointer leads out of. What is outside of such a set is in no tree at the root,
whatever is written within the set. -/

namespace GcAos.Lib.Rb
open RbTree

/-- The root and the pointers of the nodes in `K`, but for the children in `E`, lead to nodes in `K` or to
none. -/
structure ClosedBut (E : Side → ℕ → Prop) (K : Set ℕ) (t : Rb) : Prop where
  zero : 0 ∈ K
  root : t.root ∈ K
  child : ∀ s, ∀ z ∈ K, z ≠ 0 → ¬E s z → t.child s z ∈ K
  parent : ∀ z ∈ K, z ≠ 0 → t.parent z ∈ K

/-- No pointer leads out of `K`. -/
abbrev Closed (K : Set ℕ) (t : Rb) : Prop := ClosedBut (fun _ _ => False) K t

namespace ClosedBut

variable {t : Rb} {E E' : Side → ℕ → Prop} {K : Set ℕ} {s : Side} {x y v P : ℕ}

theorem mono (h : ClosedBut E K t) (hE : ∀ s z, E s z → E' s z) : ClosedBut E' K t :=
  ⟨h.zero, h.root, fun s z hz hz0 hnot => h.child s z hz hz0 fun he => hnot (hE s z he), h.parent⟩

theorem setChild_done (h : ClosedBut E K t) (hv : v ∈ K) :
    ClosedBut (fun s' z => E s' z ∧ ¬(s' = s ∧ z = x)) K (t.setChild s x v) where
  zero := h.zero
  root := h.root
  child s' z hz hz0 hnot := by
    rw [setChild_child]
    split
    · exact hv
    · next hne => exact h.child s' z hz hz0 fun he => hnot ⟨he, hne⟩
  parent := h.parent

theorem setChild (h : ClosedBut E K t) (hv : v ∈ K) : ClosedBut E K (t.setChild s x v) :=
  (h.setChild_done hv).mono fun _ _ he => he.1

theorem setParent (h : ClosedBut E K t) (hv : v ∈ K) : ClosedBut E K (t.setParent x v) where
  zero := h.zero
  root := h.root
  child := h.child
  parent z hz hz0 := by
    rw [setParent_parent]
    by_cases hzx : z = x
    · rw [hzx, Function.update_self]
      exact hv
    · rw [Function.update_of_ne hzx]
      exact h.parent z hz hz0

theorem setRed (h : ClosedBut E K t) (x : ℕ) (b : Bool) : ClosedBut E K (t.setRed x b) :=
  ⟨h.zero, h.root, h.child, h.parent⟩

theorem setRoot (h : ClosedBut E K t) (hv : v ∈ K) : ClosedBut E K (t.setRoot v) :=
  ⟨h.zero, hv, h.child, h.parent⟩

theorem reparent (h : ClosedBut E K t) (hP : P ∈ K) : ClosedBut E K (t.reparent x P) := by
  unfold Rb.reparent
  split
  · exact h
  · exact h.setParent hP

theorem relink (h : ClosedBut E K t) (hv : v ∈ K) : ClosedBut E K (t.relink P x v) := by
  unfold Rb.relink
  split
  · exact h.setRoot hv
  · split <;> exact h.setChild hv

theorem rotate (h : Closed K t) (hx : x ∈ K) (hx0 : x ≠ 0) (hy0 : t.child s.flip x ≠ 0) :
    Closed K (t.rotate s x) := by
  have hy := h.child s.flip x hx hx0 id
  have hb := h.child s _ hy hy0 id
  have hP := h.parent x hx hx0
  exact (((((h.setChild hb).reparent hx).setParent hP).relink hy).setChild hx).setParent hy

end ClosedBut

theorem Closed.mem_of_hangs {K : Set ℕ} {t : Rb} (h : Closed K t) {P : ℕ} {T : RbTree ℕ}
    (hT : t.Hangs P T) (hroot : T.root ∈ K) : ∀ z ∈ T.toList, z ∈ K := by
  induction T generalizing P with
  | nil => exact fun z hz => absurd hz List.not_mem_nil
  | node red l a r ihl ihr =>
    obtain ⟨ha, hl, hr, -, -, hhl, hhr⟩ := hT
    intro z hz
    rw [toList, List.mem_append, List.mem_cons] at hz
    rcases hz with hz | rfl | hz
    · exact ihl hhl (hl ▸ h.child .left a hroot ha id) z hz
    · exact hroot
    · exact ihr hhr (hr ▸ h.child .right a hroot ha id) z hz

theorem Closed.mem_of_linked {K : Set ℕ} {t : Rb} (h : Closed K t) {T : RbTree ℕ} (hT : t.Linked T) :
    ∀ z ∈ T.toList, z ∈ K :=
  h.mem_of_hangs hT.hangs (hT.root ▸ h.root)

/-! The pointers within a tree. -/

variable {t : Rb} {P z : ℕ} {s : Side} {T S : RbTree ℕ}

theorem Hangs.child_mem (h : t.Hangs P T) (hz : z ∈ T.toList) (s : Side) :
    t.child s z = 0 ∨ t.child s z ∈ T.toList := by
  induction T generalizing P with
  | nil => exact absurd hz List.not_mem_nil
  | node red l a r ihl ihr =>
    obtain ⟨-, hl, hr, -, -, hhl, hhr⟩ := h
    simp only [toList, List.mem_append, List.mem_cons] at hz ⊢
    rcases hz with hz | rfl | hz
    · exact (ihl hhl hz).imp_right .inl
    · cases s with
      | left =>
        rw [hl]
        exact (eq_or_ne l.root 0).imp_right fun h => .inl (root_mem h)
      | right =>
        rw [hr]
        exact (eq_or_ne r.root 0).imp_right fun h => .inr (.inr (root_mem h))
    · exact (ihr hhr hz).imp_right fun h => .inr (.inr h)

theorem Hangs.parent_root (h : t.Hangs P T) (hne : T.root ≠ 0) : t.parent T.root = P := by
  cases T with
  | nil => exact absurd rfl hne
  | node red l a r => exact h.2.2.2.1

theorem Hangs.parent_child (h : t.Hangs P T) (hz : z ∈ T.toList) (hne : t.child s z ≠ 0) :
    t.parent (t.child s z) = z := by
  induction T generalizing P with
  | nil => exact absurd hz List.not_mem_nil
  | node red l a r ihl ihr =>
    obtain ⟨-, hl, hr, -, -, hhl, hhr⟩ := h
    rw [toList, List.mem_append, List.mem_cons] at hz
    rcases hz with hz | rfl | hz
    · exact ihl hhl hz
    · cases s with
      | left =>
        rw [hl] at hne ⊢
        exact hhl.parent_root hne
      | right =>
        rw [hr] at hne ⊢
        exact hhr.parent_root hne
    · exact ihr hhr hz

theorem Hangs.eq_root_or_child (h : t.Hangs P T) (hz : z ∈ T.toList) :
    z = T.root ∨ t.parent z ∈ T.toList ∧ ∃ s, t.child s (t.parent z) = z := by
  induction T generalizing P with
  | nil => exact absurd hz List.not_mem_nil
  | node red l a r ihl ihr =>
    obtain ⟨-, hl, hr, -, -, hhl, hhr⟩ := h
    simp only [toList, List.mem_append, List.mem_cons, RbTree.root] at hz ⊢
    rcases hz with hz | rfl | hz
    · rcases ihl hhl hz with hroot | ⟨hmem, hchild⟩
      · have hp := hhl.parent_root (hroot ▸ hhl.ne_zero hz)
        rw [← hroot] at hp
        rw [hp]
        exact .inr ⟨.inr (.inl rfl), .left, hl.trans hroot.symm⟩
      · exact .inr ⟨.inl hmem, hchild⟩
    · exact .inl rfl
    · rcases ihr hhr hz with hroot | ⟨hmem, hchild⟩
      · have hp := hhr.parent_root (hroot ▸ hhr.ne_zero hz)
        rw [← hroot] at hp
        rw [hp]
        exact .inr ⟨.inr (.inl rfl), .right, hr.trans hroot.symm⟩
      · exact .inr ⟨.inr (.inr hmem), hchild⟩

theorem Linked.closedBut (h : t.Linked T) (hS : t.Hangs P S) (hP : P ≠ 0) :
    ClosedBut (fun s z => z = P ∧ t.child s z ∈ S.toList) {z | z = 0 ∨ z ∈ T.toList ∧ z ∉ S.toList} t := by
  have hup {w : ℕ} (hw : w ∈ S.toList) : t.parent w = P ∨ t.parent w ∈ S.toList := by
    rcases hS.eq_root_or_child hw with hroot | ⟨hmem, -⟩
    · rw [hroot]
      exact .inl (hS.parent_root (hroot ▸ hS.ne_zero hw))
    · exact .inr hmem
  refine ⟨.inl rfl, ?_, fun s z hz hz0 hnot => ?_, fun z hz hz0 => ?_⟩
  · rw [h.root]
    refine (eq_or_ne T.root 0).imp_right fun hne => ⟨root_mem hne, fun hmem => ?_⟩
    have hparent := hup hmem
    rw [h.hangs.parent_root hne] at hparent
    exact hparent.elim (fun h => hP h.symm) fun h => hS.ne_zero h rfl
  · obtain ⟨hzT, hzS⟩ := hz.resolve_left hz0
    refine (h.hangs.child_mem hzT s).imp_right fun hc => ⟨hc, fun hcS => ?_⟩
    have hparent := hup hcS
    rw [h.hangs.parent_child hzT (hS.ne_zero hcS)] at hparent
    exact hparent.elim (fun h => hnot ⟨h, hcS⟩) hzS
  · obtain ⟨hzT, hzS⟩ := hz.resolve_left hz0
    rcases h.hangs.eq_root_or_child hzT with hroot | ⟨hmem, s, hchild⟩
    · exact .inl (by rw [hroot]; exact h.hangs.parent_root (hroot ▸ hz0))
    · refine .inr ⟨hmem, fun hcS => ?_⟩
      rcases hS.child_mem hcS s with h0 | hin
      · exact hz0 (hchild.symm.trans h0)
      · exact hzS (hchild ▸ hin)

end GcAos.Lib.Rb
