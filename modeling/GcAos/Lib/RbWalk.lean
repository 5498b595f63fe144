import GcAos.Lib.RbLinks

/-! The way from a node to the next one in order, and the walk over all nodes. -/

namespace GcAos.Lib
open RbTree

namespace Rb

/-- `while ((parent = rb_parent(node)) && node == parent->rb_right) node = parent`, in at most the given
number of turns; what is left in `parent`. -/
def climb (t : Rb) : ℕ → ℕ → Option ℕ
  | 0, _ => none
  | n + 1, x =>
    if t.parent x ≠ 0 ∧ x = t.child .right (t.parent x) then t.climb n (t.parent x) else some (t.parent x)

/-- The node after `x` in order; 0 if there is none. -/
def next (t : Rb) (k x : ℕ) : Option ℕ :=
  if t.parent x = x then some 0
  else if t.child .right x ≠ 0 then t.leftmost k (t.child .right x)
  else t.climb k x

/-- `for (node = first; node; node = rb_next(node))`, where the body leaves the tree as it is. -/
def walk {σ : Type*} (tree : σ → Rb) (body : σ → ℕ → σ) (k : ℕ) : ℕ → σ → ℕ → Option σ
  | 0, _, _ => none
  | n + 1, s, x =>
    if x = 0 then some s
    else ((tree (body s x)).next k x).bind fun y => walk tree body k n (body s x) y

namespace Linked

variable {t : Rb} {T : RbTree ℕ} {p : List (Frame ℕ)} {k x : ℕ}

theorem climb (h : t.Linked (plug p T)) (hx : T.root ≠ 0) (hk : p.length < k) :
    t.climb k T.root = some ((behind p).headD 0) := by
  induction p generalizing T k with
  | nil =>
    obtain ⟨k, rfl⟩ := Nat.exists_eq_succ_of_ne_zero (Nat.ne_zero_of_lt hk)
    have hparent : t.parent T.root = 0 := by
      obtain ⟨-, hh, -⟩ := linked_plug_iff.mp h
      cases T with
      | nil => exact absurd rfl hx
      | node red l a r => exact hh.2.2.2.1
    rw [Rb.climb, hparent, if_neg fun h => h.1 rfl]
    rfl
  | cons f p ih =>
    obtain ⟨k, rfl⟩ := Nat.exists_eq_succ_of_ne_zero (Nat.ne_zero_of_lt hk)
    obtain ⟨⟨hf, hnear, hfar, -⟩, hh, hnodup⟩ := linked_plug_iff.mp h
    have hparent : t.parent T.root = f.addr := by
      cases T with
      | nil => exact absurd rfl hx
      | node red l a r => exact hh.2.2.2.1
    rw [Rb.climb, hparent]
    obtain ⟨side, red, a, sib⟩ := f
    cases side with
    | left =>
      refine (if_neg fun hright => ?_).trans rfl
      -- the right child is the sibling
      refine RbTree.root_ne hx (fun hmem => ?_) (hright.2.trans hfar)
      exact (List.nodup_append'.mp hnodup).2.2 (root_mem hx)
        (List.mem_cons_of_mem _ (List.mem_append_left _ hmem))
    | right =>
      rw [if_pos ⟨hf, hnear.symm⟩]
      have hroot : (Frame.fill ⟨.right, red, a, sib⟩ T).root = a := root_join ..
      have hup := ih (T := Frame.fill ⟨.right, red, a, sib⟩ T) h (by rwa [hroot]) (k := k) (by simpa using hk)
      rw [hroot] at hup
      exact hup

theorem next (h : t.Linked T) {l l' : List ℕ} (hlist : T.toList = l ++ x :: l') (hk : T.size ≤ k) :
    t.next k x = some (l'.headD 0) := by
  obtain ⟨p, red, A, B, rfl⟩ := RbTree.exists_plug (hlist ▸ List.mem_append_right l List.mem_cons_self)
  have hl' : l' = B.toList ++ behind p := by
    have hnodup := List.nodup_middle.mp (toList_plug_node p red A x B ▸ h.nodup)
    rw [List.nodup_cons, List.mem_append, not_or] at hnodup
    rw [toList_plug_node] at hlist
    exact ((List.append_cons_inj_of_notMem hnodup.1.1 hnodup.1.2).mp hlist).2.2.symm
  obtain ⟨hx, -, hright, hparent, -⟩ := Rb.Linked.fields (s := .left) (A := A) (B := B) h
  obtain ⟨-, ⟨-, -, -, -, -, -, hhB⟩, hnodup⟩ := linked_plug_iff.mp h
  have hself : t.parent x ≠ x := by
    rw [hparent]
    refine (ne_parentOf hx fun hmem => ?_).symm
    exact (List.nodup_append'.mp hnodup).2.2 (List.mem_append_right _ List.mem_cons_self) hmem
  change t.child .right x = B.root at hright
  rw [size_plug, size] at hk
  rw [Rb.next, if_neg hself, hright, hl']
  by_cases hB : B = .nil
  · subst hB
    rw [RbTree.root, if_neg (by simp)]
    have hlen := length_le_around p
    exact climb h hx (by omega)
  · rw [if_pos (hhB.root_ne_zero hB), hhB.leftmost hB (by omega)]
    cases hlB : B.toList with
    | nil => exact absurd (root_mem (hhB.root_ne_zero hB)) (by simp [hlB])
    | cons b bs => rfl

end Linked

theorem walk_eq {σ : Type*} {tree : σ → Rb} {body : σ → ℕ → σ} {T : RbTree ℕ} {k n : ℕ} {s : σ}
    (hbody : ∀ s x, tree (body s x) = tree s) (h : (tree s).Linked T) (hk : T.size ≤ k)
    {l l' : List ℕ} (hlist : T.toList = l ++ l') (hn : l'.length < n) :
    walk tree body k n s (l'.headD 0) = some (l'.foldl body s) := by
  induction l' generalizing l n s with
  | nil =>
    obtain ⟨n, rfl⟩ := Nat.exists_eq_succ_of_ne_zero (Nat.ne_zero_of_lt hn)
    exact if_pos rfl
  | cons x l' ih =>
    obtain ⟨n, rfl⟩ := Nat.exists_eq_succ_of_ne_zero (Nat.ne_zero_of_lt hn)
    have hx : x ≠ 0 := h.ne_zero (hlist ▸ List.mem_append_right l List.mem_cons_self)
    have hnext : (tree (body s x)).next k x = some (l'.headD 0) := by
      rw [hbody]
      exact h.next hlist hk
    rw [List.headD_cons, walk, if_neg hx, hnext, Option.bind_some, List.foldl_cons]
    exact ih (by rwa [hbody]) (l := l ++ [x]) (by simpa using hlist) (by simpa using hn)

end Rb

end GcAos.Lib
