import GcAos.Sched.RbErase
import GcAos.Lib.RbClosed

/-! What is left of the tree when a left child with two children is deleted: the second replacement of the
pointer to it cuts off its sibling's subtree. -/

namespace GcAos.Sched
open Lib Lib.Rb
open Lib.RbTree (join plug around parentOf Frame HoleOk mayRed)

/-- A rotation writes no pointer that leads out of a set of nodes with all their children and
parents. -/
def RbApi.Confined (api : RbApi) : Prop :=
  ∀ {K t s x}, Closed K t → x ∈ K → x ≠ 0 → t.child s.flip x ≠ 0 → Closed K (api.rotate s t x)

theorem textbook_confined : RbApi.textbook.Confined := by
  intro K t s x h hx hx0 hy0
  cases s <;> exact h.rotate hx hx0 hy0

/-- The call returns, and the tree at the root is then a red-black tree of the nodes but `x`, in the order
they had, so that any keys that were in order still are. -/
def Deletes (T : RbTree ℕ) (x : ℕ) (r : Option Rb) : Prop :=
  ∃ t' T', r = some t' ∧ Rb.Linked t' T' ∧ T'.Valid ∧ T'.toList = T.toList.erase x ∧
    ∀ key : ℕ → ℕ, (T.toList.Pairwise fun a b => key a ≤ key b) → T'.toList.Pairwise fun a b => key a ≤ key b

section Closed

variable {api : RbApi} {K : Set ℕ} {t t' : Rb} {s : Side} {k x y : ℕ}

theorem live_eq_some {u : Unit} (h : live x = some u) : x ≠ 0 := by
  rintro rfl
  exact absurd h (by simp [live])

theorem eraseOuter_closed (hapi : api.Confined) (h : Closed K t) (hx : x ∈ K) (hx0 : x ≠ 0)
    (hy : t.child s.flip x = y) (hr : eraseOuter api s t x y = some t') : Closed K t' := by
  unfold eraseOuter at hr
  simp only [Option.bind_eq_bind, Option.bind_eq_some_iff] at hr
  obtain ⟨_, hlive, _, _, hr⟩ := hr
  have hy0 := live_eq_some hlive
  have hrot := hapi (s := s) (((h.setRed y (t.red x)).setRed x false).setRed
    (t.child s.flip y) false) hx hx0 (by simpa [hy] using hy0)
  obtain rfl := Option.some.inj hr
  split
  · exact hrot
  · exact hrot.setRed _ _

theorem eraseBlack_closed (hapi : api.Confined) {loop : Rb → ℕ → ℕ → Option Rb} (h : Closed K t)
    (hx : x ∈ K) (hx0 : x ≠ 0) (hy : t.child s.flip x = y)
    (hloop : ∀ t₁ z t₂, Closed K t₁ → z ∈ K → loop t₁ x z = some t₂ → Closed K t₂)
    (hr : eraseBlack api loop s t x y = some t') : Closed K t' := by
  unfold eraseBlack at hr
  simp only [Option.bind_eq_bind, Option.bind_eq_some_iff] at hr
  obtain ⟨_, hlive, hr⟩ := hr
  have hy0 := live_eq_some hlive
  have hyK : y ∈ K := hy ▸ h.child s.flip x hx hx0 id
  split at hr
  · exact hloop _ _ _ (h.setRed y true) (h.parent x hx hx0) hr
  · next hnot =>
    split at hr
    · next houter =>
      -- the inner child is red, and so there is one
      have hinner : t.child s y ≠ 0 := by
        intro h0
        refine hnot ?_
        cases s with
        | left => exact ⟨.inl h0, houter⟩
        | right => exact ⟨houter, .inl h0⟩
      have hrot : Closed K (eraseInner api s t x y).1 :=
        hapi (s := s.flip) ((h.setRed (t.child s y) false).setRed y true) hyK hy0 (by simpa using hinner)
      exact eraseOuter_closed hapi hrot hx hx0 rfl hr
    · exact eraseOuter_closed hapi h hx hx0 hy hr

theorem rbEraseColor_closed (hapi : api.Confined) (h : Closed K t) (hy : y ∈ K)
    (hr : rbEraseColor api k t x y = some t') : Closed K t' := by
  induction k generalizing t t' x y with
  | zero => exact absurd hr (by simp [rbEraseColor])
  | succ k ih =>
    rw [rbEraseColor] at hr
    split at hr
    · simp only [Option.bind_eq_bind, Option.bind_eq_some_iff] at hr
      obtain ⟨_, hlive, _, hother, hr⟩ := hr
      have hy0 := live_eq_some hlive
      have hother0 := live_eq_some hother
      split at hr
      · have hrot : Closed K (eraseRed api (sideOf t y x) t y (t.child (sideOf t y x).flip y)).1 :=
          hapi (s := sideOf t y x) ((h.setRed _ false).setRed y true) hy hy0 (by simpa using hother0)
        exact eraseBlack_closed hapi hrot hy hy0 rfl (fun t₁ z t₂ h₁ hz => ih h₁ hz) hr
      · exact eraseBlack_closed hapi h hy hy0 rfl (fun t₁ z t₂ h₁ hz => ih h₁ hz) hr
    · obtain rfl := Option.some.inj hr
      split
      · exact h
      · exact h.setRed x false

theorem atColor_closed (hapi : api.Confined) {e : Erased} (h : Closed K e.mem) (hparent : e.parent ∈ K)
    (hr : atColor api k e = some t') : Closed K t' := by
  unfold atColor at hr
  split at hr
  · exact Option.some.inj hr ▸ h
  · exact rbEraseColor_closed hapi h hparent hr

theorem leftmost_mem {P : ℕ} {T : RbTree ℕ} (h : t.Hangs P T) (hne : T ≠ .nil)
    (hy : t.leftmost k T.root = some y) : y ∈ T.toList := by
  induction T generalizing P k with
  | nil => exact absurd rfl hne
  | node red l a r ihl _ =>
    obtain ⟨-, hl, -, -, -, hhl, -⟩ := h
    cases k with
    | zero => exact absurd hy (by simp [Rb.leftmost])
    | succ k =>
      rw [RbTree.root, Rb.leftmost, hl] at hy
      rw [RbTree.toList, List.mem_append, List.mem_cons]
      split at hy
      · exact .inr (.inl (Option.some.inj hy).symm)
      · next hl0 =>
        refine .inl (ihl hhl ?_ hy)
        rintro rfl
        exact hl0 rfl

/-- The pointer to `x` in its parent `P` has been replaced once, and that to its sibling is about to
be. -/
structure HalfDone (K : Set ℕ) (P x y : ℕ) (t : Rb) : Prop where
  closed : ClosedBut (fun s z => s = .right ∧ z = P) K t
  parent : t.parent x = P
  left : t.child .left P = y
  left_ne : t.child .left x ≠ x

variable {P : ℕ}

theorem HalfDone.takePlace_closed (h : HalfDone K P x y t) (hxK : x ∈ K) (hyK : y ∈ K) (hx : x ≠ 0)
    (hP : P ≠ 0) (hyx : y ≠ x) (hyP : y ≠ P) : Closed K (takePlace t x y) := by
  have hl : t.child .left x ∈ K := h.closed.child .left x hxK hx fun he => Side.noConfusion he.1
  generalize ht₂ : (t.setChild .left y (t.child .left x)).setParent (t.child .left x) y = t₂
  have h₂ : ClosedBut (fun s z => s = .right ∧ z = P) K t₂ := by
    rw [← ht₂]
    exact (h.closed.setChild hl).setParent hyK
  have hparent₂ : t₂.parent x = P := by
    rw [← ht₂, setParent_parent, Function.update_of_ne h.left_ne.symm]
    exact h.parent
  have hrelink : t₂.relink P x y = t₂.setChild .right P y := by
    have hleft : t₂.child .left P = y := by simp [← ht₂, hyP.symm, h.left]
    rw [Rb.relink, if_neg hP, if_neg]
    rw [hleft]
    exact hyx
  have heq : takePlace t x y = ((t₂.setChild .right P y).setParent y P).setRed y
      ((t₂.setChild .right P y).setParent y P |>.red x) := by
    have hleft : (t.setChild .left y (t.child .left x)).child .left x = t.child .left x := by
      simp [hyx.symm]
    unfold takePlace
    simp only [hleft, ht₂, hparent₂, hrelink]
    simp [hparent₂]
  have hclosed : Closed K (t₂.setChild .right P y) :=
    (h₂.setChild_done hyK).mono fun s z he => he.2 he.1
  rw [heq]
  refine (hclosed.setParent ?_).setRed y _
  exact h.parent ▸ h.closed.parent x hxK hx

theorem HalfDone.unlinkNext {R : RbTree ℕ} (h : HalfDone K P x y t) (hR : t.Hangs x R)
    (hright : t.child .right x = R.root) (hy : y ∈ R.toList) (hyK : y ∈ K) (hxK : x ∈ K) (hx : x ≠ 0)
    (hxP : x ≠ P) (hxR : x ∉ R.toList) (hPR : P ∉ R.toList) (hne : t.parent y ≠ x) :
    HalfDone K P x y (unlinkNext t x y (t.child .right y) (t.parent y)) := by
  have hy0 := hR.ne_zero hy
  have hyP : y ≠ P := ne_of_mem_of_not_mem hy hPR
  have hyx : y ≠ x := ne_of_mem_of_not_mem hy hxR
  have hparentK := h.closed.parent y hyK hy0
  have hchildK := h.closed.child .right y hyK hy0 fun he => hyP he.2
  have hrightK := h.closed.child .right x hxK hx fun he => hxP he.2
  have hparentR : t.parent y ∈ R.toList := by
    rcases hR.eq_root_or_child hy with hroot | ⟨hmem, -⟩
    · rw [hroot] at hne
      exact absurd (hR.parent_root (hroot ▸ hy0)) hne
    · exact hmem
  have hparentP : P ≠ t.parent y := (ne_of_mem_of_not_mem hparentR hPR).symm
  have hchildx : x ≠ t.child .right y := by
    rcases hR.child_mem hy .right with h0 | hmem
    · rw [h0]
      exact hx
    · exact (ne_of_mem_of_not_mem hmem hxR).symm
  have hrightx : x ≠ R.root := RbTree.root_ne hx hxR
  refine ⟨?_, ?_, ?_, ?_⟩
  · unfold Sched.unlinkNext
    refine ClosedBut.setParent (ClosedBut.setChild ((h.closed.reparent hparentK).setChild hchildK) ?_) hyK
    simpa using hrightK
  · have hrightx' : x ≠ t.child .right x := hright ▸ hrightx
    simp [Sched.unlinkNext, hyx.symm, Function.update_of_ne hrightx', Rb.reparent_parent_of_ne hchildx,
      h.parent]
  · simp [Sched.unlinkNext, hparentP, h.left]
  · simp [Sched.unlinkNext, hne.symm, h.left_ne]

theorem eraseTwo_closed {T L R S : RbTree ℕ} {p : List (Frame ℕ)} {redP redx : Bool} {e : Erased}
    (hlink : Rb.Linked t T) (hT : T = plug p (.node redP (.node redx L x R) P S))
    (hR : R ≠ .nil) (hr : eraseTwo k t x = some e) :
    Closed {z | z = 0 ∨ z ∈ T.toList ∧ z ∉ S.toList} e.mem ∧
      e.parent ∈ {z | z = 0 ∨ z ∈ T.toList ∧ z ∉ S.toList} := by
  have hhole := hlink
  rw [hT, linked_plug_iff] at hhole
  obtain ⟨-, ⟨hP, hleftP, -, -, -, ⟨hx, hleft, hright, hparent, -, hhL, hhR⟩, hhS⟩, hnodup⟩ := hhole
  have hperm : ((RbTree.node redP (.node redx L x R) P S).toList ++ around p).Perm
      (x :: P :: (L.toList ++ (R.toList ++ (S.toList ++ around p)))) := by
    simp only [RbTree.toList, List.append_assoc, List.cons_append]
    exact List.perm_middle.trans (.cons x (((List.perm_middle).append_left _).trans List.perm_middle))
  have hnd := hperm.nodup_iff.mp hnodup
  simp only [List.nodup_cons, List.mem_cons, List.mem_append, not_or] at hnd
  obtain ⟨⟨hxP, hxL, hxR, hxS, -⟩, ⟨-, hPR, hPS, -⟩, hrest⟩ := hnd
  rw [List.nodup_append', List.nodup_append'] at hrest
  have hRS := hrest.2.1.2.2
  have hmem {z : ℕ} (hz : z = x ∨ z = P ∨ z ∈ R.toList) : z ∈ T.toList := by
    rw [hT, (RbTree.plug_perm _ _).mem_iff, hperm.mem_iff, List.mem_cons, List.mem_cons, List.mem_append,
      List.mem_append]
    exact hz.imp_right (Or.imp_right fun h => .inr (.inl h))
  have hxK : x ∈ {z | z = 0 ∨ z ∈ T.toList ∧ z ∉ S.toList} := .inr ⟨hmem (.inl rfl), hxS⟩
  have hPK : P ∈ {z | z = 0 ∨ z ∈ T.toList ∧ z ∉ S.toList} := .inr ⟨hmem (.inr (.inl rfl)), hPS⟩
  have hRK {z : ℕ} (hz : z ∈ R.toList) : z ∈ {z | z = 0 ∨ z ∈ T.toList ∧ z ∉ S.toList} :=
    .inr ⟨hmem (.inr (.inr hz)), fun h => hRS hz (List.mem_append_left _ h)⟩
  have hclosed := hlink.closedBut hhS hP
  generalize {z | z = 0 ∨ z ∈ T.toList ∧ z ∉ S.toList} = K at hxK hPK hRK hclosed ⊢
  unfold eraseTwo at hr
  simp only [Option.bind_eq_bind, Option.bind_eq_some_iff] at hr
  obtain ⟨y, hleftmost, hr⟩ := hr
  rw [hright] at hleftmost
  have hy := leftmost_mem hhR hR hleftmost
  have hyx : y ≠ x := ne_of_mem_of_not_mem hy hxR
  have hyP : y ≠ P := ne_of_mem_of_not_mem hy hPR
  -- the pointer is replaced for the first time
  have hrelink : t.relink (t.parent x) x y = t.setChild .left P y := by
    rw [hparent, Rb.relink, if_neg hP]
    exact if_pos hleftP
  rw [hrelink] at hr
  generalize ht₁ : t.setChild .left P y = t₁ at hr
  have hhalf : HalfDone K P x y t₁ := by
    rw [← ht₁]
    refine ⟨(hclosed.setChild_done (hRK hy)).mono fun s z he => ⟨?_, he.1.1⟩, hparent, if_pos ⟨rfl, rfl⟩, ?_⟩
    · obtain ⟨⟨rfl, -⟩, hne⟩ := he
      cases s with
      | left => exact absurd ⟨rfl, rfl⟩ hne
      | right => rfl
    · rw [setChild_child, if_neg fun h => hxP h.2, hleft]
      exact (RbTree.root_ne hx hxL).symm
  have hhR₁ : t₁.Hangs x R := hhR.congr fun z hz => by
    rw [← ht₁]
    exact .setChild (ne_of_mem_of_not_mem hz hPR) _ _
  have hright₁ : t₁.child .right x = R.root := by
    rw [← ht₁, setChild_child, if_neg fun h => Side.noConfusion h.1]
    exact hright
  split at hr
  · obtain rfl := Option.some.inj hr
    exact ⟨hhalf.takePlace_closed hxK (hRK hy) hx hP hyx hyP, hRK hy⟩
  · next hne =>
    rw [Option.bind_eq_some_iff] at hr
    obtain ⟨_, -, hr⟩ := hr
    obtain rfl := Option.some.inj hr
    have hhalf' := hhalf.unlinkNext hhR₁ hright₁ hy (hRK hy) hxK hx hxP hxR hPR hne
    refine ⟨hhalf'.takePlace_closed hxK (hRK hy) hx hP hyx hyP, ?_⟩
    exact hhalf.closed.parent y (hRK hy) (hhR₁.ne_zero hy)

end Closed

theorem exists_sibling {t : Rb} {T : RbTree ℕ} {x : ℕ} (hlink : Rb.Linked t T) (hvalid : T.Valid)
    (hx : x ∈ T.toList) (h : LeftWithTwo t x) :
    ∃ p redP redx L R P S, T = plug p (.node redP (.node redx L x R) P S) ∧ R ≠ .nil ∧ S ≠ .nil ∧
      x ∉ S.toList := by
  obtain ⟨hparent, hchild, hleft, hright⟩ := h
  obtain ⟨p, redx, L, R, rfl⟩ := RbTree.exists_plug hx
  obtain ⟨hx0, hL, hR, hP, -⟩ := Rb.Linked.fields (s := .left) (A := L) (B := R) hlink
  have hLne : L ≠ .nil := by
    rintro rfl
    exact hleft hL
  have hRne : R ≠ .nil := by
    rintro rfl
    exact hright hR
  cases p with
  | nil => exact absurd hP hparent
  | cons f p =>
    rw [hP, parentOf] at hchild
    obtain ⟨⟨-, -, hfar, -⟩, -, hnodup⟩ := linked_plug_iff.mp hlink
    have hnot : x ∉ f.sib.toList := fun hmem =>
      (List.nodup_append'.mp hnodup).2.2 (List.mem_append_right _ List.mem_cons_self)
        (List.mem_cons_of_mem _ (List.mem_append_left _ hmem))
    have hside := side_of_child hx0 hnot hfar hchild
    obtain ⟨s, redP, P, S⟩ := f
    obtain rfl : .left = s := hside
    refine ⟨p, redP, redx, L, R, P, S, rfl, hRne, ?_, hnot⟩
    rintro rfl
    -- there are no black nodes on the way down to the sibling, and so none below `x`
    obtain ⟨n, ⟨hS, -⟩, hsub, -⟩ := RbTree.valid_plug_iff.mp hvalid
    obtain rfl : n = 0 := hS
    cases redx with
    | false =>
      obtain ⟨m, hm, -⟩ := hsub
      exact absurd hm (Nat.succ_ne_zero m).symm
    | true =>
      obtain ⟨hok, -, hblack, -⟩ := hsub
      cases L with
      | nil => exact hLne rfl
      | node red l a r =>
        obtain rfl : red = false := hblack
        obtain ⟨m, hm, -⟩ := hok
        exact absurd hm (Nat.succ_ne_zero m).symm

theorem not_deletes {api : RbApi} {t : Rb} {T : RbTree ℕ} {n x : ℕ} (hapi : api.Confined)
    (hlink : Rb.Linked t T) (hvalid : T.Valid) (hx : x ∈ T.toList) (h : LeftWithTwo t x) :
    ¬Deletes T x (rbErase api n t x) := by
  obtain ⟨p, redP, redx, L, R, P, S, hT, hR, hS, hxS⟩ := exists_sibling hlink hvalid hx h
  rintro ⟨t', T', hr, hlink', -, hlist, -⟩
  unfold rbErase at hr
  simp only [Option.bind_eq_bind, Option.bind_eq_some_iff] at hr
  obtain ⟨_, -, hr⟩ := hr
  rw [if_neg h.2.2.1, if_neg h.2.2.2, Option.bind_eq_some_iff] at hr
  obtain ⟨e, htwo, hr⟩ := hr
  obtain ⟨hclosed, hparent⟩ := eraseTwo_closed hlink hT hR htwo
  have hmem := (atColor_closed hapi hclosed hparent hr).mem_of_linked hlink'
  -- the sibling is not `x` and was in the tree
  obtain ⟨w, hw⟩ : ∃ w, w ∈ S.toList := by
    cases S with
    | nil => exact absurd rfl hS
    | node red l a r => exact ⟨a, by simp [RbTree.toList]⟩
  have hwT : w ∈ T.toList := by
    rw [hT, (RbTree.plug_perm _ _).mem_iff, RbTree.toList, List.mem_append, List.mem_append, List.mem_cons]
    exact .inl (.inr (.inr hw))
  have hin : w ∈ T'.toList := by
    rw [hlist]
    exact (List.mem_erase_of_ne (ne_of_mem_of_not_mem hw hxS)).mpr hwT
  exact (hmem w hin).elim (hlink.ne_zero hwT) fun h => h.2 hw

/-- `rb_erase` deletes the node, unless it is a left child that has two children. -/
theorem rb_erase_iff {api : RbApi} {t : Rb} {T : RbTree ℕ} {n x : ℕ} (hapi : api.Standard)
    (hconfined : api.Confined) (hlink : Rb.Linked t T) (hvalid : T.Valid) (hx : x ∈ T.toList)
    (hn : T.size < n) : Deletes T x (rbErase api n t x) ↔ ¬LeftWithTwo t x := by
  refine ⟨fun hd h => not_deletes hconfined hlink hvalid hx h hd, fun hsafe => ?_⟩
  obtain ⟨t', T', hr, hlink', hvalid', hlist, -⟩ := rbErase_spec hapi hlink hvalid hx hn hsafe
  refine ⟨t', T', hr, hlink', hvalid', hlist, fun key hsorted => ?_⟩
  rw [hlist]
  exact hsorted.sublist List.erase_sublist

def fiveTree : RbTree ℕ :=
  .node false (.node true (.node false .nil 1 .nil) 2 (.node false .nil 3 .nil)) 4 (.node false .nil 5 .nil)

def fiveNodes : Rb where
  child
    | .left, x => [0, 0, 1, 0, 2].getD x 0
    | .right, x => [0, 0, 3, 0, 5].getD x 0
  parent x := [0, 2, 4, 2, 0, 4].getD x 0
  red x := x = 2
  root := 4

theorem fiveNodes_linked : Rb.Linked fiveNodes fiveTree where
  hangs := by simp [fiveTree, fiveNodes, Rb.Hangs, RbTree.root]
  root := rfl
  nodup := by decide

theorem fiveTree_valid : fiveTree.Valid := by
  refine ⟨rfl, 2, 1, rfl, ⟨?_, ?_, rfl, rfl⟩, ?_⟩ <;> exact ⟨0, rfl, rfl, rfl⟩

theorem rb_erase_iff_root : Deletes fiveTree 4 (rbErase .textbook 6 fiveNodes 4) := by
  refine (rb_erase_iff RbApi.textbook_standard textbook_confined fiveNodes_linked fiveTree_valid ?_ ?_).mpr ?_
  all_goals decide

/-- The red node is a left child with two children: the node 3 takes its place, and that of the node 5 as
well. -/
theorem rb_erase_loses_sibling : RbApi.textbook.Standard ∧ Rb.Linked fiveNodes fiveTree ∧ fiveTree.Valid ∧
    2 ∈ fiveTree.toList ∧ ∀ n, ¬Deletes fiveTree 2 (rbErase .textbook n fiveNodes 2) := by
  have hmem : 2 ∈ fiveTree.toList := by decide
  refine ⟨RbApi.textbook_standard, fiveNodes_linked, fiveTree_valid, hmem, fun n => ?_⟩
  exact not_deletes textbook_confined fiveNodes_linked fiveTree_valid hmem (by decide)

end GcAos.Sched
