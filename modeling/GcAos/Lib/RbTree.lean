import Mathlib.Data.List.Perm.Basic
import Mathlib.Data.List.Nodup
import Mathlib.Tactic

/-! Red-black trees, and such trees with a hole. What holds on the left and on the right alike is said
for a side. -/

namespace GcAos.Lib

inductive Side
  | left | right
  deriving DecidableEq

namespace Side

def flip : Side → Side
  | left => right
  | right => left

@[simp] theorem flip_flip (s : Side) : s.flip.flip = s := by cases s <;> rfl

theorem flip_ne (s : Side) : s.flip ≠ s := by cases s <;> decide

end Side

inductive RbTree (α : Type*)
  | nil
  | node (red : Bool) (l : RbTree α) (a : α) (r : RbTree α)

namespace RbTree

variable {α : Type*}

/-- The node `a` with `t` on the side `s` and `u` on the other one. -/
def join (s : Side) (red : Bool) (t : RbTree α) (a : α) (u : RbTree α) : RbTree α :=
  match s with
  | .left => node red t a u
  | .right => node red u a t

theorem join_flip (s : Side) (red : Bool) (t : RbTree α) (a : α) (u : RbTree α) :
    join s.flip red t a u = join s red u a t := by cases s <;> rfl

theorem eq_nil_or_join (s : Side) (t : RbTree α) : t = nil ∨ ∃ red u a v, t = join s red u a v := by
  cases t with
  | nil => exact .inl rfl
  | node red l a r =>
    cases s with
    | left => exact .inr ⟨red, l, a, r, rfl⟩
    | right => exact .inr ⟨red, r, a, l, rfl⟩

def toList : RbTree α → List α
  | nil => []
  | node _ l a r => l.toList ++ a :: r.toList

theorem mem_join {s : Side} {red : Bool} {t u : RbTree α} {a b : α} :
    b ∈ (join s red t a u).toList ↔ b = a ∨ b ∈ t.toList ∨ b ∈ u.toList := by
  cases s <;> simp [join, toList] <;> tauto

theorem join_perm (s : Side) (red : Bool) (t : RbTree α) (a : α) (u : RbTree α) :
    (join s red t a u).toList.Perm (a :: (t.toList ++ u.toList)) := by
  cases s with
  | left => exact List.perm_middle
  | right => exact List.perm_middle.trans (List.perm_append_comm.cons a)

theorem toList_join_congr (s : Side) (red red' : Bool) {t t' u u' : RbTree α} (a : α)
    (ht : t.toList = t'.toList) (hu : u.toList = u'.toList) :
    (join s red t a u).toList = (join s red' t' a u').toList := by
  cases s <;> simp [join, toList, ht, hu]

theorem toList_join_color (s : Side) (red red' : Bool) (t : RbTree α) (a : α) (u : RbTree α) :
    (join s red t a u).toList = (join s red' t a u).toList := toList_join_congr s red red' a rfl rfl

theorem toList_rotate (s : Side) {r r' q q' : Bool} {t u v : RbTree α} {a b : α} :
    (join s r t a (join s q u b v)).toList = (join s q' (join s r' t a u) b v).toList := by
  cases s <;> simp [join, toList]

def size : RbTree α → ℕ
  | nil => 0
  | node _ l _ r => l.size + r.size + 1

theorem length_toList (t : RbTree α) : t.toList.length = t.size := by
  induction t with
  | nil => rfl
  | node red l a r ihl ihr =>
    rw [toList, List.length_append, List.length_cons, ihl, ihr, size]
    omega

/-! The colours. -/

def isRed : RbTree α → Bool
  | nil => false
  | node red _ _ _ => red

@[simp] theorem isRed_join (s : Side) (red : Bool) (t : RbTree α) (a : α) (u : RbTree α) :
    (join s red t a u).isRed = red := by cases s <;> rfl

/-- No red node has a red child, and there are `n` black nodes on every way down. -/
def Ok : RbTree α → ℕ → Prop
  | nil, n => n = 0
  | node true l _ r, n => l.Ok n ∧ r.Ok n ∧ l.isRed = false ∧ r.isRed = false
  | node false l _ r, n => ∃ m, n = m + 1 ∧ l.Ok m ∧ r.Ok m

theorem ok_red {s : Side} {t u : RbTree α} {a : α} {n : ℕ} :
    (join s true t a u).Ok n ↔ t.Ok n ∧ u.Ok n ∧ t.isRed = false ∧ u.isRed = false := by
  cases s with
  | left => rfl
  | right =>
    rw [join, Ok]
    tauto

theorem ok_black {s : Side} {t u : RbTree α} {a : α} {n : ℕ} :
    (join s false t a u).Ok n ↔ ∃ m, n = m + 1 ∧ t.Ok m ∧ u.Ok m := by
  cases s with
  | left => rfl
  | right =>
    rw [join, Ok]
    exact exists_congr fun m => and_congr_right fun _ => and_comm

theorem ok_black_succ {s : Side} {t u : RbTree α} {a : α} {n : ℕ} :
    (join s false t a u).Ok (n + 1) ↔ t.Ok n ∧ u.Ok n := by
  rw [ok_black]
  constructor
  · rintro ⟨m, hm, h⟩
    obtain rfl := Nat.succ.inj hm
    exact h
  · exact fun h => ⟨n, rfl, h⟩

theorem ok_join {s : Side} {red : Bool} {t u : RbTree α} {a : α} {n : ℕ} (ht : t.Ok n) (hu : u.Ok n)
    (htred : t.isRed = false) (hured : u.isRed = false) :
    (join s red t a u).Ok (if red then n else n + 1) := by
  cases red with
  | true => exact ok_red.mpr ⟨ht, hu, htred, hured⟩
  | false => exact ok_black_succ.mpr ⟨ht, hu⟩

def Valid (t : RbTree α) : Prop := t.isRed = false ∧ ∃ n, t.Ok n

/-- A node of a tree and what lies on its other side, seen from a subtree on `side`. -/
structure Frame (α : Type*) where
  side : Side
  red : Bool
  addr : α
  sib : RbTree α

def Frame.fill (f : Frame α) (t : RbTree α) : RbTree α := join f.side f.red t f.addr f.sib

/-- The tree with `t` in its hole; the frames go up from there. -/
def plug : List (Frame α) → RbTree α → RbTree α
  | [], t => t
  | f :: p, t => plug p (f.fill t)

theorem plug_far (p : List (Frame α)) (s : Side) (red : Bool) (t : RbTree α) (a : α) (u : RbTree α) :
    plug p (join s red t a u) = plug (⟨s.flip, red, a, t⟩ :: p) u := by
  rw [plug, Frame.fill, join_flip]

theorem plug_append (p q : List (Frame α)) (t : RbTree α) : plug (p ++ q) t = plug q (plug p t) := by
  induction p generalizing t with
  | nil => rfl
  | cons f p ih => exact ih _

def around : List (Frame α) → List α
  | [] => []
  | f :: p => f.addr :: (f.sib.toList ++ around p)

def before : List (Frame α) → List α
  | [] => []
  | f :: p =>
    match f.side with
    | .left => before p
    | .right => before p ++ (f.sib.toList ++ [f.addr])

def behind : List (Frame α) → List α
  | [] => []
  | f :: p =>
    match f.side with
    | .left => f.addr :: (f.sib.toList ++ behind p)
    | .right => behind p

theorem before_append (p q : List (Frame α)) : before (p ++ q) = before q ++ before p := by
  induction p with
  | nil => exact (List.append_nil _).symm
  | cons f p ih =>
    rw [List.cons_append, before, before, ih]
    cases f.side <;> simp

theorem behind_append (p q : List (Frame α)) : behind (p ++ q) = behind p ++ behind q := by
  induction p with
  | nil => rfl
  | cons f p ih =>
    rw [List.cons_append, behind, behind, ih]
    cases f.side <;> simp

theorem toList_plug (p : List (Frame α)) (t : RbTree α) :
    (plug p t).toList = before p ++ (t.toList ++ behind p) := by
  induction p generalizing t with
  | nil => simp [plug, before, behind]
  | cons f p ih =>
    obtain ⟨side, red, a, sib⟩ := f
    rw [plug, ih]
    cases side <;> simp [Frame.fill, join, before, behind, toList]

theorem plug_perm (p : List (Frame α)) (t : RbTree α) :
    (plug p t).toList.Perm (t.toList ++ around p) := by
  induction p generalizing t with
  | nil => simp [plug, around]
  | cons f p ih =>
    refine (ih _).trans (((join_perm _ _ _ _ _).append_right _).trans ?_)
    rw [around, List.cons_append, List.append_assoc]
    exact List.perm_middle.symm

theorem toList_plug_congr {t t' : RbTree α} (h : t.toList = t'.toList) (p : List (Frame α)) :
    (plug p t).toList = (plug p t').toList := by
  rw [toList_plug, toList_plug, h]

theorem length_le_around (p : List (Frame α)) : p.length ≤ (around p).length := by
  induction p with
  | nil => exact le_rfl
  | cons f p ih =>
    rw [around, List.length_cons, List.length_cons, List.length_append]
    omega

theorem size_plug (p : List (Frame α)) (t : RbTree α) :
    (plug p t).size = t.size + (around p).length := by
  rw [← length_toList, (plug_perm p t).length_eq, List.length_append, length_toList]

theorem toList_plug_node (p : List (Frame α)) (red : Bool) (l : RbTree α) (a : α) (r : RbTree α) :
    (plug p (node red l a r)).toList = (before p ++ l.toList) ++ a :: (r.toList ++ behind p) := by
  simp [toList_plug, toList]

def mayRed : List (Frame α) → Bool
  | [] => false
  | f :: _ => !f.red

/-- A subtree with `n` black nodes on every way down fits in the hole. -/
def HoleOk : List (Frame α) → ℕ → Prop
  | [], _ => True
  | f :: p, n => f.sib.Ok n ∧ (f.red = true → f.sib.isRed = false ∧ mayRed p = true) ∧
    HoleOk p (if f.red then n else n + 1)

theorem holeOk_red {s : Side} {a : α} {u : RbTree α} {p : List (Frame α)} {n : ℕ} :
    HoleOk (⟨s, true, a, u⟩ :: p) n ↔ u.Ok n ∧ (u.isRed = false ∧ mayRed p = true) ∧ HoleOk p n := by
  simp [HoleOk]

theorem holeOk_black {s : Side} {a : α} {u : RbTree α} {p : List (Frame α)} {n : ℕ} :
    HoleOk (⟨s, false, a, u⟩ :: p) n ↔ u.Ok n ∧ HoleOk p (n + 1) := by
  simp [HoleOk]

theorem valid_plug_iff {p : List (Frame α)} {t : RbTree α} :
    (plug p t).Valid ↔ ∃ n, HoleOk p n ∧ t.Ok n ∧ (t.isRed = true → mayRed p = true) := by
  induction p generalizing t with
  | nil => simp [plug, Valid, HoleOk, mayRed, and_comm]
  | cons f p ih =>
    obtain ⟨s, red, a, u⟩ := f
    rw [plug, ih, Frame.fill]
    dsimp only
    cases red with
    | true =>
      refine exists_congr fun n => ?_
      rw [ok_red, holeOk_red, isRed_join]
      simp only [mayRed, Bool.not_true, Bool.false_eq_true, imp_false, Bool.not_eq_true]
      tauto
    | false =>
      constructor
      · rintro ⟨n, hp, hok, -⟩
        obtain ⟨m, rfl, ht, hu⟩ := ok_black.mp hok
        exact ⟨m, holeOk_black.mpr ⟨hu, hp⟩, ht, fun _ => rfl⟩
      · rintro ⟨n, hp, ht, -⟩
        obtain ⟨hu, hp⟩ := holeOk_black.mp hp
        refine ⟨n + 1, hp, ok_black_succ.mpr ⟨ht, hu⟩, ?_⟩
        rw [isRed_join]
        exact fun h => absurd h Bool.false_ne_true

theorem holeOk_addr {q p : List (Frame α)} {f : Frame α} {n : ℕ} (a : α) :
    HoleOk (q ++ { f with addr := a } :: p) n ↔ HoleOk (q ++ f :: p) n := by
  induction q generalizing n with
  | nil => rfl
  | cons g q ih =>
    have hmay : mayRed (q ++ { f with addr := a } :: p) = mayRed (q ++ f :: p) := by
      cases q <;> rfl
    rw [List.cons_append, List.cons_append, HoleOk, HoleOk, ih, hmay]

theorem exists_leftmost {t : RbTree α} (h : t ≠ nil) :
    ∃ p red a u, t = plug p (node red nil a u) ∧ ∀ f ∈ p, f.side = Side.left := by
  induction t with
  | nil => exact absurd rfl h
  | node red l a r ihl _ =>
    by_cases hl : l = nil
    · subst hl
      exact ⟨[], red, a, r, rfl, fun f hf => absurd hf List.not_mem_nil⟩
    · obtain ⟨p, red', b, u, rfl, hp⟩ := ihl hl
      refine ⟨p ++ [⟨.left, red, a, r⟩], red', b, u, ?_, ?_⟩
      · rw [plug_append]
        rfl
      · intro f hf
        rcases List.mem_append.mp hf with hf | hf
        · exact hp f hf
        · rw [List.mem_singleton.mp hf]

theorem before_eq_nil {p : List (Frame α)} (h : ∀ f ∈ p, f.side = Side.left) : before p = [] := by
  induction p with
  | nil => rfl
  | cons f p ih =>
    rw [before, h f List.mem_cons_self]
    exact ih fun g hg => h g (List.mem_cons_of_mem f hg)

theorem exists_plug {t : RbTree α} {a : α} (h : a ∈ t.toList) :
    ∃ p red l r, t = plug p (node red l a r) := by
  induction t with
  | nil => exact absurd h List.not_mem_nil
  | node red l b r ihl ihr =>
    rw [toList, List.mem_append, List.mem_cons] at h
    rcases h with h | rfl | h
    · obtain ⟨p, red', l', r', rfl⟩ := ihl h
      exact ⟨p ++ [⟨.left, red, b, r⟩], red', l', r', by rw [plug_append]; rfl⟩
    · exact ⟨[], red, l, r, rfl⟩
    · obtain ⟨p, red', l', r', rfl⟩ := ihr h
      exact ⟨p ++ [⟨.right, red, b, l⟩], red', l', r', by rw [plug_append]; rfl⟩

end RbTree

end GcAos.Lib
