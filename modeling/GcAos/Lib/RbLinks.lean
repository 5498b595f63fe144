import GcAos.Lib.RbTree

/-! Red-black trees of nodes that are linked by pointers. The memory is kept field by field, and 0 is no
node. -/

namespace GcAos.Lib

/-- The fields of all nodes, and a pointer to the root of one tree. -/
structure Rb where
  child : Side → ℕ → ℕ
  parent : ℕ → ℕ
  red : ℕ → Bool
  root : ℕ

namespace Rb

variable (t : Rb)

def setChild (s : Side) (x v : ℕ) : Rb :=
  { t with child := fun s' y => if s' = s ∧ y = x then v else t.child s' y }

def setParent (x v : ℕ) : Rb := { t with parent := Function.update t.parent x v }

def setRed (x : ℕ) (b : Bool) : Rb := { t with red := Function.update t.red x b }

def setRoot (x : ℕ) : Rb := { t with root := x }

/-- The parent of the node at `x`, if there is one, becomes `P`. -/
def reparent (x P : ℕ) : Rb := if x = 0 then t else t.setParent x P

/-- The pointer to `old` in its parent `P`, or at the root, becomes `new`. -/
def relink (P old new : ℕ) : Rb :=
  if P = 0 then t.setRoot new
  else if t.child .left P = old then t.setChild .left P new
  else t.setChild .right P new

section Fields

variable {t} {s : Side} {x v : ℕ} {b : Bool}

@[simp] theorem setChild_child (s' : Side) (y : ℕ) :
    (t.setChild s x v).child s' y = if s' = s ∧ y = x then v else t.child s' y := rfl
@[simp] theorem setChild_parent : (t.setChild s x v).parent = t.parent := rfl
@[simp] theorem setChild_red : (t.setChild s x v).red = t.red := rfl
@[simp] theorem setChild_root : (t.setChild s x v).root = t.root := rfl
@[simp] theorem setParent_child : (t.setParent x v).child = t.child := rfl
@[simp] theorem setParent_parent : (t.setParent x v).parent = Function.update t.parent x v := rfl
@[simp] theorem setParent_red : (t.setParent x v).red = t.red := rfl
@[simp] theorem setParent_root : (t.setParent x v).root = t.root := rfl
@[simp] theorem setRed_child : (t.setRed x b).child = t.child := rfl
@[simp] theorem setRed_parent : (t.setRed x b).parent = t.parent := rfl
@[simp] theorem setRed_red : (t.setRed x b).red = Function.update t.red x b := rfl
@[simp] theorem setRed_root : (t.setRed x b).root = t.root := rfl
@[simp] theorem setRoot_child : (t.setRoot x).child = t.child := rfl
@[simp] theorem setRoot_parent : (t.setRoot x).parent = t.parent := rfl
@[simp] theorem setRoot_red : (t.setRoot x).red = t.red := rfl
@[simp] theorem setRoot_root : (t.setRoot x).root = x := rfl

@[simp] theorem reparent_child (P : ℕ) : (t.reparent x P).child = t.child := by
  unfold reparent
  split <;> rfl

@[simp] theorem reparent_red (P : ℕ) : (t.reparent x P).red = t.red := by
  unfold reparent
  split <;> rfl

@[simp] theorem reparent_root (P : ℕ) : (t.reparent x P).root = t.root := by
  unfold reparent
  split <;> rfl

theorem reparent_parent_of_ne {P y : ℕ} (h : y ≠ x) : (t.reparent x P).parent y = t.parent y := by
  unfold reparent
  split
  · rfl
  · exact Function.update_of_ne h _ _

@[simp] theorem relink_parent (P old new : ℕ) : (t.relink P old new).parent = t.parent := by
  unfold relink
  split
  · rfl
  · split <;> rfl

@[simp] theorem relink_red (P old new : ℕ) : (t.relink P old new).red = t.red := by
  unfold relink
  split
  · rfl
  · split <;> rfl

theorem relink_child_of_ne {P old new y : ℕ} (h : y ≠ P) (s : Side) :
    (t.relink P old new).child s y = t.child s y := by
  unfold relink
  split
  · rfl
  · split <;> exact if_neg fun hs => h hs.2

end Fields

/-- The node at `x` is the same in `t'`. -/
structure Agree (t t' : Rb) (x : ℕ) : Prop where
  child : ∀ s, t'.child s x = t.child s x
  parent : t'.parent x = t.parent x
  red : t'.red x = t.red x

namespace Agree

variable {t} {t' t'' : Rb} {x y : ℕ}

theorem refl (t : Rb) (x : ℕ) : Agree t t x := ⟨fun _ => rfl, rfl, rfl⟩

theorem trans (h : Agree t t' x) (h' : Agree t' t'' x) : Agree t t'' x :=
  ⟨fun s => (h'.child s).trans (h.child s), h'.parent.trans h.parent, h'.red.trans h.red⟩

theorem setChild (h : x ≠ y) (s : Side) (v : ℕ) : Agree t (t.setChild s y v) x :=
  ⟨fun _ => if_neg fun hs => h hs.2, rfl, rfl⟩

theorem setParent (h : x ≠ y) (v : ℕ) : Agree t (t.setParent y v) x :=
  ⟨fun _ => rfl, Function.update_of_ne h _ _, rfl⟩

theorem setRed (h : x ≠ y) (b : Bool) : Agree t (t.setRed y b) x :=
  ⟨fun _ => rfl, rfl, Function.update_of_ne h _ _⟩

theorem reparent (h : x ≠ y) (P : ℕ) : Agree t (t.reparent y P) x :=
  ⟨fun s => by rw [reparent_child], reparent_parent_of_ne h, by rw [reparent_red]⟩

theorem relink {P : ℕ} (h : x ≠ P) (old new : ℕ) : Agree t (t.relink P old new) x :=
  ⟨relink_child_of_ne h, by rw [relink_parent], by rw [relink_red]⟩

end Agree

end Rb

namespace RbTree

def root : RbTree ℕ → ℕ
  | nil => 0
  | node _ _ a _ => a

@[simp] theorem root_nil : (nil : RbTree ℕ).root = 0 := rfl

@[simp] theorem root_join (s : Side) (red : Bool) (T : RbTree ℕ) (a : ℕ) (U : RbTree ℕ) :
    (join s red T a U).root = a := by cases s <;> rfl

theorem root_mem {T : RbTree ℕ} (h : T.root ≠ 0) : T.root ∈ T.toList := by
  cases T with
  | nil => exact absurd rfl h
  | node => simp [root, toList]

theorem root_ne {T : RbTree ℕ} {x : ℕ} (hx : x ≠ 0) (h : x ∉ T.toList) : x ≠ T.root := by
  rintro rfl
  exact h (root_mem hx)

/-- The parent of what is in the hole, where `P` is that of the whole tree. -/
def parentOf (P : ℕ) : List (Frame ℕ) → ℕ
  | [] => P
  | f :: _ => f.addr

theorem parentOf_append {P : ℕ} {f : Frame ℕ} (q p : List (Frame ℕ)) :
    parentOf P (q ++ f :: p) = parentOf f.addr q := by cases q <;> rfl

theorem ne_parentOf {p : List (Frame ℕ)} {x : ℕ} (hx : x ≠ 0) (h : x ∉ around p) :
    x ≠ parentOf 0 p := by
  cases p with
  | nil => exact hx
  | cons f p =>
    rintro rfl
    exact h List.mem_cons_self

end RbTree

open RbTree

/-- The tree `T` hangs in the memory under the parent `P`. -/
def Rb.Hangs (t : Rb) (P : ℕ) : RbTree ℕ → Prop
  | .nil => True
  | .node red l a r => a ≠ 0 ∧ t.child .left a = l.root ∧ t.child .right a = r.root ∧ t.parent a = P ∧
    t.red a = red ∧ Hangs t a l ∧ Hangs t a r

open Rb (Hangs)

theorem hangs_join {t : Rb} {P : ℕ} {s : Side} {red : Bool} {A B : RbTree ℕ} {a : ℕ} :
    Hangs t P (join s red A a B) ↔ a ≠ 0 ∧ t.child s a = A.root ∧ t.child s.flip a = B.root ∧
      t.parent a = P ∧ t.red a = red ∧ Hangs t a A ∧ Hangs t a B := by
  cases s with
  | left => rfl
  | right =>
    rw [join, Hangs, Side.flip]
    tauto

theorem Rb.Hangs.congr {t t' : Rb} {P : ℕ} {T : RbTree ℕ} (h : Hangs t P T)
    (hsame : ∀ x ∈ T.toList, t.Agree t' x) : Hangs t' P T := by
  induction T generalizing P with
  | nil => trivial
  | node red l a r ihl ihr =>
    obtain ⟨ha, hl, hr, hp, hred, hhl, hhr⟩ := h
    simp only [toList, List.mem_append, List.mem_cons] at hsame
    have hagree := hsame a (.inr (.inl rfl))
    refine ⟨ha, (hagree.child _).trans hl, (hagree.child _).trans hr, hagree.parent.trans hp,
      hagree.red.trans hred, ?_, ?_⟩
    · exact ihl hhl fun x hx => hsame x (.inl hx)
    · exact ihr hhr fun x hx => hsame x (.inr (.inr hx))

theorem Rb.Hangs.ne_zero {t : Rb} {P : ℕ} {T : RbTree ℕ} (h : Hangs t P T) {x : ℕ}
    (hx : x ∈ T.toList) : x ≠ 0 := by
  induction T generalizing P with
  | nil => exact absurd hx List.not_mem_nil
  | node red l a r ihl ihr =>
    obtain ⟨ha, -, -, -, -, hl, hr⟩ := h
    rw [toList, List.mem_append, List.mem_cons] at hx
    rcases hx with hx | rfl | hx
    · exact ihl hl hx
    · exact ha
    · exact ihr hr hx

theorem Rb.Hangs.root_ne_zero {t : Rb} {P : ℕ} {T : RbTree ℕ} (h : Hangs t P T) (hne : T ≠ .nil) :
    T.root ≠ 0 := by
  cases T with
  | nil => exact absurd rfl hne
  | node => exact h.1

theorem Rb.Hangs.reparent {t : Rb} {P : ℕ} {T : RbTree ℕ} (h : Hangs t P T)
    (hnodup : T.toList.Nodup) (Q : ℕ) :
    Hangs (t.reparent T.root Q) Q T := by
  cases T with
  | nil => trivial
  | node red l a r =>
    obtain ⟨ha, hl, hr, hp, hred, hhl, hhr⟩ := h
    rw [RbTree.root, Rb.reparent, if_neg ha]
    have hmem := List.nodup_middle.mp hnodup
    rw [List.nodup_cons, List.mem_append, not_or] at hmem
    refine ⟨ha, hl, hr, Function.update_self _ _ _, hred, ?_, ?_⟩
    · exact hhl.congr fun x hx => .setParent (ne_of_mem_of_not_mem hx hmem.1.1) Q
    · exact hhr.congr fun x hx => .setParent (ne_of_mem_of_not_mem hx hmem.1.2) Q

/-- The nodes around a hole, under the parent `P`: `out` points to the topmost one, and `hole` is what
the hole's parent points to. -/
def Rb.Seg (t : Rb) (P : ℕ) : List (Frame ℕ) → ℕ → ℕ → Prop
  | [], out, hole => out = hole
  | f :: p, out, hole => f.addr ≠ 0 ∧ t.child f.side f.addr = hole ∧
      t.child f.side.flip f.addr = f.sib.root ∧
    t.parent f.addr = parentOf P p ∧ t.red f.addr = f.red ∧ Hangs t f.addr f.sib ∧ Seg t P p out f.addr

open Rb (Seg)

theorem Rb.Seg.congr {t t' : Rb} {P : ℕ} {p : List (Frame ℕ)} {out hole : ℕ} (h : Seg t P p out hole)
    (hsame : ∀ x ∈ around p, t.Agree t' x) : Seg t' P p out hole := by
  induction p generalizing hole with
  | nil => exact h
  | cons f p ih =>
    obtain ⟨ha, hnear, hfar, hp, hred, hsib, hseg⟩ := h
    simp only [around, List.mem_cons, List.mem_append] at hsame
    have hagree := hsame f.addr (.inl rfl)
    refine ⟨ha, (hagree.child _).trans hnear, (hagree.child _).trans hfar, hagree.parent.trans hp,
      hagree.red.trans hred, ?_, ?_⟩
    · exact hsib.congr fun x hx => hsame x (.inr (.inl hx))
    · exact ih hseg fun x hx => hsame x (.inr (.inr hx))

theorem hangs_plug {t : Rb} {P : ℕ} {p : List (Frame ℕ)} {T : RbTree ℕ} :
    Hangs t P (plug p T) ↔ Seg t P p (plug p T).root T.root ∧ Hangs t (parentOf P p) T := by
  induction p generalizing T with
  | nil => simp [plug, Seg, parentOf]
  | cons f p ih =>
    rw [plug, ih, Frame.fill, hangs_join, root_join, Seg, parentOf]
    tauto

theorem Rb.Seg.out_eq {t : Rb} {P out : ℕ} {p : List (Frame ℕ)} {T : RbTree ℕ}
    (h : Seg t P p out T.root) :
    out = (plug p T).root := by
  induction p generalizing T with
  | nil => exact h
  | cons f p ih =>
    obtain ⟨-, -, -, -, -, -, hseg⟩ := h
    refine ih ?_
    rw [Frame.fill, root_join]
    exact hseg

/-- The tree `T` is the one at the root. -/
structure Rb.Linked (t : Rb) (T : RbTree ℕ) : Prop where
  hangs : Hangs t 0 T
  root : t.root = T.root
  nodup : T.toList.Nodup

theorem linked_plug_iff {t : Rb} {p : List (Frame ℕ)} {T : RbTree ℕ} :
    Rb.Linked t (plug p T) ↔ Seg t 0 p t.root T.root ∧ Hangs t (parentOf 0 p) T ∧
      (T.toList ++ around p).Nodup := by
  rw [← (plug_perm p T).nodup_iff]
  constructor
  · rintro ⟨hh, hroot, hnodup⟩
    obtain ⟨hseg, hT⟩ := hangs_plug.mp hh
    rw [hroot]
    exact ⟨hseg, hT, hnodup⟩
  · rintro ⟨hseg, hT, hnodup⟩
    have hout := hseg.out_eq
    exact ⟨hangs_plug.mpr ⟨hout ▸ hseg, hT⟩, hout, hnodup⟩

namespace Rb.Linked

variable {t : Rb} {p : List (Frame ℕ)} {s : Side} {red : Bool} {A B : RbTree ℕ} {a : ℕ}

theorem ne_zero {T : RbTree ℕ} (h : Rb.Linked t T) {x : ℕ} (hx : x ∈ T.toList) : x ≠ 0 :=
    h.hangs.ne_zero hx

theorem fields (h : Rb.Linked t (plug p (join s red A a B))) : a ≠ 0 ∧ t.child s a = A.root ∧
    t.child s.flip a = B.root ∧ t.parent a = parentOf 0 p ∧ t.red a = red := by
  obtain ⟨-, hh, -⟩ := linked_plug_iff.mp h
  obtain ⟨ha, hA, hB, hp, hred, -, -⟩ := hangs_join.mp hh
  exact ⟨ha, hA, hB, hp, hred⟩

theorem nodup_plug {T : RbTree ℕ} (h : Rb.Linked t (plug p T)) : (T.toList ++ around p).Nodup :=
  (linked_plug_iff.mp h).2.2

theorem setRed (h : Rb.Linked t (plug p (join s red A a B))) (b : Bool) :
    Rb.Linked (t.setRed a b) (plug p (join s b A a B)) := by
  rw [linked_plug_iff] at h ⊢
  obtain ⟨hseg, hh, hnodup⟩ := h
  obtain ⟨ha, hA, hB, hp, hred, hhA, hhB⟩ := hangs_join.mp hh
  have hperm := (join_perm s red A a B).append_right (around p)
  have hnodup' := hperm.nodup_iff.mp hnodup
  rw [List.cons_append, List.nodup_cons, List.mem_append, List.mem_append, not_or, not_or] at hnodup'
  obtain ⟨⟨⟨hnotA, hnotB⟩, hnotp⟩, -⟩ := hnodup'
  refine ⟨?_, ?_, ?_⟩
  · rw [root_join] at hseg ⊢
    exact hseg.congr fun x hx => .setRed (ne_of_mem_of_not_mem hx hnotp) b
  · refine hangs_join.mpr ⟨ha, hA, hB, hp, Function.update_self _ _ _, ?_, ?_⟩
    · exact hhA.congr fun x hx => .setRed (ne_of_mem_of_not_mem hx hnotA) b
    · exact hhB.congr fun x hx => .setRed (ne_of_mem_of_not_mem hx hnotB) b
  · rwa [toList_join_color s b red]

theorem setRed_far {s' : Side} {red' : Bool} {C : RbTree ℕ} {b : ℕ}
    (h : Rb.Linked t (plug p (join s red A a (join s' red' B b C)))) (col : Bool) :
    Rb.Linked (t.setRed b col) (plug p (join s red A a (join s' col B b C))) := by
  rw [plug_far] at h ⊢
  exact h.setRed col

end Rb.Linked

theorem Rb.Seg.setChild {t : Rb} {P out hole : ℕ} {f : Frame ℕ} {p : List (Frame ℕ)}
    (h : Seg t P (f :: p) out hole) (hnodup : (around (f :: p)).Nodup) (b : ℕ) :
    Seg (t.setChild f.side f.addr b) P (f :: p) out b := by
  obtain ⟨hf, hnear, hfar, hp, hred, hsib, hseg⟩ := h
  rw [around, List.nodup_cons, List.mem_append, not_or] at hnodup
  obtain ⟨⟨hxsib, hxp⟩, -⟩ := hnodup
  refine ⟨hf, if_pos ⟨rfl, rfl⟩, ?_, hp, hred, ?_, ?_⟩
  · rw [Rb.setChild_child, if_neg fun hs => f.side.flip_ne hs.1]
    exact hfar
  · exact hsib.congr fun y hy => .setChild (ne_of_mem_of_not_mem hy hxsib) _ _
  · exact hseg.congr fun y hy => .setChild (ne_of_mem_of_not_mem hy hxp) _ _

theorem Rb.Hangs.unlink {t : Rb} {P : ℕ} {f : Frame ℕ} {p : List (Frame ℕ)} {s : Side} {red : Bool}
    {A : RbTree ℕ} {x : ℕ} (h : Hangs t P (plug (f :: p) (join s red A x nil)))
    (hnodup : (A.toList ++ around (f :: p)).Nodup) :
    Hangs ((t.reparent A.root f.addr).setChild f.side f.addr A.root) P (plug (f :: p) A) ∧
      (plug (f :: p) A).root = (plug (f :: p) (join s red A x nil)).root := by
  obtain ⟨hseg, hA⟩ := hangs_plug.mp h
  obtain ⟨-, -, -, -, -, hhA, -⟩ := hangs_join.mp hA
  obtain ⟨hnodupA, hnodupp, hAp⟩ := List.nodup_append'.mp hnodup
  have hseg₁ : Seg (t.reparent A.root f.addr) P (f :: p) (plug (f :: p) (join s red A x nil)).root
      (join s red A x nil).root := by
    refine hseg.congr fun z hz => .reparent (root_ne ?_ fun hmem => hAp hmem hz) _
    exact h.ne_zero ((plug_perm _ _).mem_iff.mpr (List.mem_append_right _ hz))
  have hseg₂ := hseg₁.setChild hnodupp A.root
  have hout := hseg₂.out_eq
  refine ⟨hangs_plug.mpr ⟨hout ▸ hseg₂, (hhA.reparent hnodupA f.addr).congr fun z hz => ?_⟩, hout.symm⟩
  refine .setChild (fun heq => hAp hz ?_) _ _
  rw [heq]
  exact List.mem_cons_self

theorem Rb.Seg.relink {t : Rb} {p : List (Frame ℕ)} {a : ℕ} (h : Seg t 0 p t.root a) (ha : a ≠ 0)
    (hnodup : (a :: around p).Nodup) (b : ℕ) :
    Seg (t.relink (parentOf 0 p) a b) 0 p (t.relink (parentOf 0 p) a b).root b := by
  cases p with
  | nil => rfl
  | cons f p =>
    obtain ⟨hf, hnear, hfar, -⟩ := id h
    obtain ⟨hnot, hnodup⟩ := List.nodup_cons.mp hnodup
    have hrelink : t.relink f.addr a b = t.setChild f.side f.addr b := by
      rw [Rb.relink, if_neg hf]
      cases hside : f.side with
      | left =>
        rw [hside] at hnear
        rw [if_pos hnear]
      | right =>
        rw [hside] at hfar
        refine if_neg fun heq => root_ne ha (fun hsib => hnot ?_) (heq.symm.trans hfar)
        exact List.mem_cons_of_mem _ (List.mem_append_left _ hsib)
    rw [parentOf, hrelink]
    exact h.setChild hnodup b

/-! The textbook operations. -/

namespace Rb

variable (t : Rb)

/-- The node at `x` goes down to the side `s`, and its child on the other side takes its place. -/
def rotate (s : Side) (x : ℕ) : Rb :=
  let y := t.child s.flip x
  let b := t.child s y
  let P := t.parent x
  ((((((t.setChild s.flip x b).reparent b x).setParent y P).relink P x y).setChild s y x).setParent x y)

/-- A red node without children becomes the child of `P` on the side `s`. -/
def linkNode (x P : ℕ) (s : Side) : Rb :=
  let t := (((t.setParent x P).setRed x true).setChild .left x 0).setChild .right x 0
  if P = 0 then t.setRoot x else t.setChild s P x

/-- `while ((left = node->rb_left) != NULL) node = left`, in at most the given number of turns. -/
def leftmost : ℕ → ℕ → Option ℕ
  | 0, _ => none
  | n + 1, x => if t.child .left x = 0 then some x else leftmost n (t.child .left x)

end Rb

theorem Rb.Hangs.leftmost {t : Rb} {P k : ℕ} {T : RbTree ℕ} (h : Hangs t P T) (hne : T ≠ .nil)
    (hk : T.size ≤ k) :
    t.leftmost k T.root = some (T.toList.headD 0) := by
  induction T generalizing P k with
  | nil => exact absurd rfl hne
  | node red l a r ihl _ =>
    obtain ⟨-, hl, -, -, -, hhl, -⟩ := h
    rw [RbTree.size] at hk
    obtain ⟨k, rfl⟩ : ∃ m, k = m + 1 := ⟨k - 1, by omega⟩
    rw [RbTree.root, Rb.leftmost, hl]
    cases l with
    | nil => rfl
    | node red' l' b r' =>
      rw [RbTree.root, if_neg hhl.1]
      refine (ihl hhl (by simp) (by omega)).trans ?_
      simp [toList, List.headD_eq_head?_getD, List.head?_append]

namespace Rb.Linked

variable {t : Rb} {p : List (Frame ℕ)} {s : Side} {rx ry : Bool} {A B C : RbTree ℕ} {x y : ℕ}

theorem rotate (h : Rb.Linked t (plug p (join s rx A x (join s ry B y C)))) :
    Rb.Linked (t.rotate s x) (plug p (join s ry (join s rx A x B) y C)) ∧
      ∀ z, z ≠ 0 → z ∉ (plug p (join s rx A x (join s ry B y C))).toList →
        t.Agree (t.rotate s x) z := by
  obtain ⟨hseg, hh, hnodup⟩ := linked_plug_iff.mp h
  obtain ⟨hx, hA, hy', hP, hredx, hhA, hhY⟩ := hangs_join.mp hh
  rw [root_join] at hseg hy'
  obtain ⟨hy, hB, hC, hPy, hredy, hhB, hhC⟩ := hangs_join.mp hhY
  have hperm : ((join s rx A x (join s ry B y C)).toList ++ around p).Perm
      (x :: y :: (A.toList ++ (B.toList ++ (C.toList ++ around p)))) := by
    refine ((join_perm s rx A x _).append_right _).trans (.cons x ?_)
    refine (((join_perm s ry B y C).append_left _).append_right _).trans ?_
    rw [List.append_assoc, List.cons_append, List.append_assoc]
    exact List.perm_middle
  have hnd := hperm.nodup_iff.mp hnodup
  simp only [List.nodup_cons, List.mem_cons, List.mem_append, not_or] at hnd
  obtain ⟨⟨hxy, hxA, hxB, hxC, hxp⟩, ⟨hyA, hyB, hyC, hyp⟩, hrest⟩ := hnd
  rw [List.nodup_append', List.nodup_append', List.nodup_append'] at hrest
  obtain ⟨-, ⟨hnodupB, ⟨-, hnodupp, hCp⟩, hBCp⟩, hABCp⟩ := hrest
  have hxP : x ≠ parentOf 0 p := ne_parentOf hx hxp
  have hyP : y ≠ parentOf 0 p := ne_parentOf hy hyp
  -- what is written: `x`, `y`, the root of `B` and the parent
  have hagree : ∀ z, z ≠ x → z ≠ y → z ≠ B.root → z ≠ parentOf 0 p → t.Agree (t.rotate s x) z := by
    intro z hzx hzy hzB hzP
    unfold Rb.rotate
    dsimp only
    rw [hy', hB, hP]
    exact (((((Rb.Agree.setChild hzx _ _).trans (.reparent hzB _)).trans (.setParent hzy _)).trans
      (.relink hzP _ _)).trans (.setChild hzy _ _)).trans (.setParent hzx _)
  have hne : ∀ z ∈ A.toList ++ (B.toList ++ (C.toList ++ around p)), z ≠ 0 := fun z hz =>
    h.ne_zero ((plug_perm p _).mem_iff.mpr (hperm.mem_iff.mpr
      (List.mem_cons_of_mem _ (List.mem_cons_of_mem _ hz))))
  have hhA' : Hangs (t.rotate s x) x A := by
    refine hhA.congr fun z hz => ?_
    have hz0 := hne z (List.mem_append_left _ hz)
    refine hagree z (ne_of_mem_of_not_mem hz hxA) (ne_of_mem_of_not_mem hz hyA) ?_ ?_
    · exact root_ne hz0 fun hB => hABCp hz (List.mem_append_left _ hB)
    · exact ne_parentOf hz0 fun hp => hABCp hz (List.mem_append_right _ (List.mem_append_right _ hp))
  have hhC' : Hangs (t.rotate s x) y C := by
    refine hhC.congr fun z hz => ?_
    have hz0 := hne z (List.mem_append_right _ (List.mem_append_right _ (List.mem_append_left _ hz)))
    refine hagree z (ne_of_mem_of_not_mem hz hxC) (ne_of_mem_of_not_mem hz hyC) ?_ ?_
    · exact root_ne hz0 fun hB => hBCp hB (List.mem_append_left _ hz)
    · exact ne_parentOf hz0 fun hp => hCp hz hp
  have hhB' : Hangs (t.rotate s x) x B := by
    have hhB₂ := (hhB.congr fun z hz => .setChild (ne_of_mem_of_not_mem hz hxB) s.flip B.root).reparent
      hnodupB x
    unfold Rb.rotate
    dsimp only
    rw [hy', hB, hP]
    refine hhB₂.congr fun z hz => ?_
    have hz0 := hne z (List.mem_append_right _ (List.mem_append_left _ hz))
    have hzP := ne_parentOf hz0 fun hp => hBCp hz (List.mem_append_right _ hp)
    have hzx := ne_of_mem_of_not_mem hz hxB
    have hzy := ne_of_mem_of_not_mem hz hyB
    exact (((Rb.Agree.setParent hzy _).trans (.relink hzP _ _)).trans (.setChild hzy _ _)).trans
      (.setParent hzx _)
  refine ⟨?_, fun z hz hnot => ?_⟩
  · rw [linked_plug_iff, root_join]
    refine ⟨?_, ?_, ?_⟩
    · have hseg₃ : Seg (((t.setChild s.flip x B.root).reparent B.root x).setParent y (parentOf 0 p)) 0 p
          (((t.setChild s.flip x B.root).reparent B.root x).setParent y (parentOf 0 p)).root x := by
        rw [Rb.setParent_root, Rb.reparent_root, Rb.setChild_root]
        refine hseg.congr fun z hz => ?_
        have hz0 := hne z (List.mem_append_right _
            (List.mem_append_right _ (List.mem_append_right _ hz)))
        have hzB : z ≠ B.root := root_ne hz0 fun hB => hBCp hB (List.mem_append_right _ hz)
        exact ((Rb.Agree.setChild (ne_of_mem_of_not_mem hz hxp) _ _).trans (.reparent hzB _)).trans
          (.setParent (ne_of_mem_of_not_mem hz hyp) _)
      have hseg₄ := hseg₃.relink hx (List.nodup_cons.mpr ⟨hxp, hnodupp⟩) y
      unfold Rb.rotate
      dsimp only
      rw [hy', hB, hP]
      exact hseg₄.congr fun z hz => (Rb.Agree.setChild (ne_of_mem_of_not_mem hz hyp) _ _).trans
        (.setParent (ne_of_mem_of_not_mem hz hxp) _)
    · refine hangs_join.mpr ⟨hy, ?_, ?_, ?_, ?_, ?_, hhC'⟩
      · rw [root_join]
        simp [Rb.rotate, hy']
      · simp [Rb.rotate, hy', hP, Rb.relink_child_of_ne hyP, Side.flip_ne, Ne.symm hxy, hC]
      · simp [Rb.rotate, hy', hP, Ne.symm hxy]
      · simp [Rb.rotate, hredy]
      · refine hangs_join.mpr ⟨hx, ?_, ?_, ?_, ?_, hhA', hhB'⟩
        · simp [Rb.rotate, hy', hP, Rb.relink_child_of_ne hxP, hxy, (Side.flip_ne s).symm, hA]
        · simp [Rb.rotate, hy', hP, Rb.relink_child_of_ne hxP, hxy, hB]
        · simp [Rb.rotate, hy']
        · simp [Rb.rotate, hredx]
    · rwa [toList_rotate s (r := rx) (q := ry)] at hnodup
  · have hnot' : z ∉ x :: y :: (A.toList ++ (B.toList ++ (C.toList ++ around p))) := fun hmem =>
      hnot ((plug_perm p _).mem_iff.mpr (hperm.mem_iff.mpr hmem))
    simp only [List.mem_cons, List.mem_append, not_or] at hnot'
    obtain ⟨hzx, hzy, -, hzB, -, hzp⟩ := hnot'
    exact hagree z hzx hzy (root_ne hz hzB) (ne_parentOf hz hzp)

theorem linkNode (h : Rb.Linked t (plug p nil)) (hx : x ≠ 0) (hnot : x ∉ around p)
    (hs : ∀ f ∈ p.head?, f.side = s) :
    Rb.Linked (t.linkNode x (parentOf 0 p) s) (plug p (node true nil x nil)) ∧
      ∀ z, z ≠ 0 → z ≠ x → z ∉ around p → t.Agree (t.linkNode x (parentOf 0 p) s) z := by
  obtain ⟨hseg, -, hnodup⟩ := linked_plug_iff.mp h
  rw [toList, List.nil_append] at hnodup
  have hxP : x ≠ parentOf 0 p := ne_parentOf hx hnot
  generalize ht₁ :
    (((t.setParent x (parentOf 0 p)).setRed x true).setChild .left x 0).setChild .right x 0 = t₁
  have hlink : t.linkNode x (parentOf 0 p) s =
      if parentOf 0 p = 0 then t₁.setRoot x else t₁.setChild s (parentOf 0 p) x := by rw [← ht₁]; rfl
  have hagree : ∀ z, z ≠ x → t.Agree t₁ z := by
    intro z hz
    rw [← ht₁]
    exact (((Rb.Agree.setParent hz _).trans (.setRed hz _)).trans (.setChild hz _ _)).trans
      (.setChild hz _ _)
  have hagree' : ∀ z, z ≠ parentOf 0 p → t₁.Agree (t.linkNode x (parentOf 0 p) s) z := by
    intro z hz
    rw [hlink]
    split
    · exact ⟨fun _ => rfl, rfl, rfl⟩
    · exact .setChild hz _ _
  have hseg₁ : Seg t₁ 0 p t₁.root 0 := by
    have hroot : t₁.root = t.root := by rw [← ht₁]; rfl
    rw [hroot]
    exact hseg.congr fun z hz => hagree z (ne_of_mem_of_not_mem hz hnot)
  refine ⟨?_, fun z hz hzx hzp => (hagree z hzx).trans (hagree' z (ne_parentOf hz hzp))⟩
  rw [linked_plug_iff]
  refine ⟨?_, ?_, ?_⟩
  · rw [hlink]
    cases p with
    | nil => rfl
    | cons f p =>
      rw [parentOf, if_neg hseg₁.1, ← hs f rfl]
      exact hseg₁.setChild hnodup x
  · have hself := hagree' x hxP
    refine ⟨hx, (hself.child _).trans ?_, (hself.child _).trans ?_, hself.parent.trans ?_,
      hself.red.trans ?_,
      trivial, trivial⟩ <;> rw [← ht₁] <;> simp
  · exact List.nodup_cons.mpr ⟨hnot, hnodup⟩

theorem splice (h : Rb.Linked t (plug p (join s rx A x nil))) :
    Rb.Linked ((t.reparent A.root (parentOf 0 p)).relink (parentOf 0 p) x A.root) (plug p A) ∧
      ∀ z, z ≠ 0 → z ∉ (plug p A).toList →
        t.Agree ((t.reparent A.root (parentOf 0 p)).relink (parentOf 0 p) x A.root) z := by
  obtain ⟨hseg, hh, hnodup⟩ := linked_plug_iff.mp h
  obtain ⟨hx, -, -, hP, -, hhA, -⟩ := hangs_join.mp hh
  rw [root_join] at hseg
  have hperm : ((join s rx A x nil).toList ++ around p).Perm (x :: (A.toList ++ around p)) := by
    have := (join_perm s rx A x nil).append_right (around p)
    simpa [toList] using this
  have hnd := hperm.nodup_iff.mp hnodup
  rw [List.nodup_cons, List.mem_append, not_or, List.nodup_append'] at hnd
  obtain ⟨⟨hxA, hxp⟩, hnodupA, hnodupp, hAp⟩ := hnd
  have hne : ∀ z ∈ A.toList ++ around p, z ≠ 0 := fun z hz =>
    h.ne_zero ((plug_perm p _).mem_iff.mpr (hperm.mem_iff.mpr (List.mem_cons_of_mem _ hz)))
  refine ⟨?_, fun z hz hnot => ?_⟩
  · rw [linked_plug_iff]
    refine ⟨?_, ?_, List.nodup_append'.mpr ⟨hnodupA, hnodupp, hAp⟩⟩
    · refine Seg.relink ?_ hx (List.nodup_cons.mpr ⟨hxp, hnodupp⟩) A.root
      rw [Rb.reparent_root]
      refine hseg.congr fun z hz => .reparent
        (root_ne (hne z (List.mem_append_right _ hz)) fun hA => hAp hA hz) _
    · refine (hhA.reparent hnodupA (parentOf 0 p)).congr fun z hz => .relink ?_ _ _
      exact ne_parentOf (hne z (List.mem_append_left _ hz)) fun hp => hAp hz hp
  · rw [(plug_perm p A).mem_iff, List.mem_append, not_or] at hnot
    exact (Rb.Agree.reparent (root_ne hz hnot.1) _).trans (.relink (ne_parentOf hz hnot.2) _ _)

end Rb.Linked

end GcAos.Lib
