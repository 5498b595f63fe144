import GcAos.Lib.RbLinks

/-! The red-black trees of `kernel/sched/fairness.c`: `rb_insert_color`, `rb_erase_color` and
`rb_erase`. A branch and its mirror image are one definition for a side. `none` stands for a write
or a read through NULL, and for a loop that has not ended after the given number of turns. -/

namespace GcAos.Sched
open Lib
open Lib.RbTree (join plug around parentOf)

/-- What is taken from `kernel/rbtree.h`, which is not part of the repository. The place where a
node is linked in is told by its parent and the side, and the loop in `rb_first` ends after a number
of turns. -/
structure RbApi where
  linkNode : Rb → ℕ → ℕ → Side → Rb
  leftRotate : Rb → ℕ → Rb
  rightRotate : Rb → ℕ → Rb
  first : ℕ → Rb → ℕ

namespace RbApi

variable (api : RbApi)

def rotate : Side → Rb → ℕ → Rb
  | .left => api.leftRotate
  | .right => api.rightRotate

/-- The functions do what they do in any implementation of such trees, and write to no node outside of
the tree. -/
structure Standard : Prop where
  linkNode : ∀ {t p x s}, Rb.Linked t (plug p .nil) → x ≠ 0 → x ∉ around p → (∀ f ∈ p.head?, f.side = s) →
    Rb.Linked (api.linkNode t x (parentOf 0 p) s) (plug p (.node true .nil x .nil)) ∧
      ∀ z, z ≠ 0 → z ≠ x → z ∉ around p → t.Agree (api.linkNode t x (parentOf 0 p) s) z
  rotate : ∀ {t p s rx ry A x B y C}, Rb.Linked t (plug p (join s rx A x (join s ry B y C))) →
    Rb.Linked (api.rotate s t x) (plug p (join s ry (join s rx A x B) y C)) ∧
      ∀ z, z ≠ 0 → z ∉ (plug p (join s rx A x (join s ry B y C))).toList → t.Agree (api.rotate s t x) z
  first : ∀ {t T k}, Rb.Linked t T → T.size ≤ k → api.first k t = T.toList.headD 0

def textbook : RbApi where
  linkNode := Rb.linkNode
  leftRotate t := t.rotate .left
  rightRotate t := t.rotate .right
  first k t := if t.root = 0 then 0 else (t.leftmost k t.root).getD 0

theorem textbook_standard : textbook.Standard where
  linkNode h hx hnot hs := h.linkNode hx hnot hs
  rotate {t p s rx ry A x B y C} h := by cases s <;> exact h.rotate
  first {t T k} h hk := by
    change (if t.root = 0 then 0 else (t.leftmost k t.root).getD 0) = T.toList.headD 0
    rw [h.root]
    by_cases hT : T = .nil
    · rw [hT]
      rfl
    · rw [if_neg (h.hangs.root_ne_zero hT), h.hangs.leftmost hT hk]
      rfl

end RbApi

def live (x : ℕ) : Option Unit := if x = 0 then none else some ()

@[simp] theorem live_of_ne {x : ℕ} (h : x ≠ 0) : live x = some () := if_neg h

/-- `!node || rb_is_black(node)`. -/
def BlackAt (t : Rb) (x : ℕ) : Prop := x = 0 ∨ t.red x = false

instance (t : Rb) (x : ℕ) : Decidable (BlackAt t x) := inferInstanceAs (Decidable (_ ∨ _))

/-! `rb_insert_color`. -/

def recolour (t : Rb) (uncle parent gparent : ℕ) : Rb :=
  ((t.setRed uncle false).setRed parent false).setRed gparent true

/-- The node is the inner child. The memory, `node` and `parent` afterwards. -/
def insertInner (s : Side) (t : Rb) (node parent gparent : ℕ) : Rb × ℕ × ℕ :=
  let tmp := t.child s node
  let t := (t.setChild s.flip parent tmp).setChild s node parent
  ((t.reparent tmp parent).setParent node gparent, parent, tmp)

/-- The uncle is black, where `parent` is the child of `gparent` on the side `s`. The memory and `node`
afterwards. -/
def insertRotate (s : Side) (t : Rb) (node parent gparent : ℕ) : Option (Rb × ℕ) := do
  let (t, node, parent) :=
    if t.child s.flip parent = node then insertInner s t node parent gparent else (t, node, parent)
  live parent
  let t := t.setChild s parent (t.child s.flip node)
  let t := t.setChild s.flip node parent
  let t := t.reparent (t.child s.flip parent) parent
  let t := t.setParent parent node
  let parent := t.parent node
  let t :=
    if parent = 0 then t.setRoot node
    else if t.child s parent = gparent then t.setChild s parent node
    else t.setChild s.flip parent node
  some (t.setRed gparent true, parent)

/-- Which child of `parent` the node is: `parent->rb_left == node` is asked. -/
def sideOf (t : Rb) (parent node : ℕ) : Side := if t.child .left parent = node then .left else .right

def rbInsertColor : ℕ → Rb → ℕ → Option Rb
  | 0, _, _ => none
  | n + 1, t, node => do
    live node
    let parent := t.parent node
    if parent = 0 ∨ t.red parent = false then
      live t.root
      some (t.setRed t.root false)
    else
      let gparent := t.parent parent
      live gparent
      let s := sideOf t gparent parent
      let uncle := t.child s.flip gparent
      if uncle ≠ 0 ∧ t.red uncle = true then
        rbInsertColor n (recolour t uncle parent gparent) gparent
      else
        let (t, node) ← insertRotate s t node parent gparent
        rbInsertColor n t node

/-! `rb_erase_color`. -/

section Erase

variable (api : RbApi)

/-- The sibling `other` is red. The memory and the new sibling. -/
def eraseRed (s : Side) (t : Rb) (parent other : ℕ) : Rb × ℕ :=
  let t := api.rotate s ((t.setRed other false).setRed parent true) parent
  (t, t.child s.flip parent)

/-- The outer child of the sibling is black, and the inner one is red. -/
def eraseInner (s : Side) (t : Rb) (parent other : ℕ) : Rb × ℕ :=
  let t := api.rotate s.flip ((t.setRed (t.child s other) false).setRed other true) other
  (t, t.child s.flip parent)

def eraseOuter (s : Side) (t : Rb) (parent other : ℕ) : Option Rb := do
  live other
  let t := (t.setRed other (t.red parent)).setRed parent false
  live (t.child s.flip other)
  let t := api.rotate s (t.setRed (t.child s.flip other) false) parent
  some (if t.root = 0 then t else t.setRed t.root false)

/-- The sibling `other` is black. Where both of its children are black too, `loop` goes on above. -/
def eraseBlack (loop : Rb → ℕ → ℕ → Option Rb) (s : Side) (t : Rb) (parent other : ℕ) : Option Rb := do
  live other
  if BlackAt t (t.child .left other) ∧ BlackAt t (t.child .right other) then
    let t := t.setRed other true
    loop t parent (t.parent parent)
  else if BlackAt t (t.child s.flip other) then
    let (t, other) := eraseInner api s t parent other
    eraseOuter api s t parent other
  else eraseOuter api s t parent other

def rbEraseColor : ℕ → Rb → ℕ → ℕ → Option Rb
  | 0, _, _, _ => none
  | n + 1, t, node, parent =>
    if BlackAt t node ∧ node ≠ t.root then do
      live parent
      let s := sideOf t parent node
      let other := t.child s.flip parent
      live other
      let (t, other) := if t.red other = true then eraseRed api s t parent other else (t, other)
      eraseBlack api (rbEraseColor n) s t parent other
    else some (if node = 0 then t else t.setRed node false)

/-! `rb_erase`. -/

/-- The memory, `child`, `parent` and the colour at the label `color`. -/
structure Erased where
  mem : Rb
  child : ℕ
  parent : ℕ
  red : Bool

/-- The node has `child` as its only one, or none. -/
def eraseOne (t : Rb) (node child : ℕ) : Erased :=
  let parent := t.parent node
  ⟨(t.reparent child parent).relink parent node child, child, parent, t.red node⟩

/-- The leftmost node of the right subtree leaves its parent. -/
def unlinkNext (t : Rb) (old node child parent : ℕ) : Rb :=
  let t := (t.reparent child parent).setChild .left parent child
  let t := t.setChild .right node (t.child .right old)
  t.setParent (t.child .right old) node

/-- The left subtree, the parent and the colour of `old` go to `node`. -/
def takePlace (t : Rb) (old node : ℕ) : Rb :=
  let t := t.setChild .left node (t.child .left old)
  let t := t.setParent (t.child .left old) node
  let t := t.relink (t.parent old) old node
  let t := t.setParent node (t.parent old)
  t.setRed node (t.red old)

/-- The node `old` has two children; the next one in order, `node`, takes its place. The pointer to
`old` is replaced here, and once more in `takePlace`. -/
def eraseTwo (n : ℕ) (t : Rb) (old : ℕ) : Option Erased := do
  let node ← t.leftmost n (t.child .right old)
  let t := t.relink (t.parent old) old node
  let child := t.child .right node
  let parent := t.parent node
  let red := t.red node
  if parent = old then some ⟨takePlace t old node, child, node, red⟩
  else do
    live parent
    some ⟨takePlace (unlinkNext t old node child parent) old node, child, parent, red⟩

/-- The label `color`. -/
def atColor (n : ℕ) (e : Erased) : Option Rb :=
  if e.red then some e.mem else rbEraseColor api n e.mem e.child e.parent

def rbErase (n : ℕ) (t : Rb) (node : ℕ) : Option Rb := do
  live node
  if t.child .left node = 0 then atColor api n (eraseOne t node (t.child .right node))
  else if t.child .right node = 0 then atColor api n (eraseOne t node (t.child .left node))
  else atColor api n (← eraseTwo n t node)

end Erase

end GcAos.Sched
