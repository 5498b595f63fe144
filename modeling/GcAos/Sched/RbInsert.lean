import GcAos.Sched.RbColor

/-! Insertions that need no rotation. -/

namespace GcAos.Sched
open Lib
open Lib.RbTree (join plug around parentOf Frame HoleOk mayRed)

/-- A red node below `x` needs no more than new colours: either `x` is no node or a black one, or its
sibling is red as well, and the same holds two levels up. -/
inductive OnlyRecolours (t : Rb) : ℕ → Prop
  | root : OnlyRecolours t 0
  | black {x : ℕ} : t.red x = false → OnlyRecolours t x
  | red {x : ℕ} (s : Side) : t.child s (t.parent x) = x → t.child s.flip (t.parent x) ≠ 0 →
      t.red (t.child s.flip (t.parent x)) = true → OnlyRecolours t (t.parent (t.parent x)) →
        OnlyRecolours t x

def Recolours : List (Frame ℕ) → Prop
  | [] => True
  | [f] => f.red = false
  | f :: g :: p => f.red = false ∨ g.sib.isRed = true ∧ Recolours p

section

variable {t : Rb} {p : List (Frame ℕ)}

theorem side_of_child {f : Frame ℕ} {x : ℕ} {s : Side} (hx : x ≠ 0) (hnot : x ∉ f.sib.toList)
    (hsib : t.child f.side.flip f.addr = f.sib.root) (h : t.child s f.addr = x) : s = f.side := by
  by_contra hne
  have hflip : s = f.side.flip := by
    cases s <;> cases hside : f.side <;> simp_all [Side.flip]
  rw [hflip, hsib] at h
  exact RbTree.root_ne hx hnot h.symm

theorem sideOf_eq {f : Frame ℕ} {x : ℕ} (hnear : t.child f.side f.addr = x)
    (hfar : t.child f.side.flip f.addr = f.sib.root) (hne : x ≠ f.sib.root) :
      sideOf t f.addr x = f.side := by
  unfold sideOf
  cases hside : f.side with
  | left =>
    rw [hside] at hnear
    rw [if_pos hnear]
  | right =>
    rw [hside] at hfar
    exact if_neg fun heq => hne (heq.symm.trans hfar)

theorem recolours_of_links {n : ℕ} {T : RbTree ℕ} (hlink : Rb.Linked t (plug p T)) (hok : HoleOk p n)
    (h : OnlyRecolours t (parentOf 0 p)) : Recolours p := by
  induction p using Recolours.induct generalizing n T with
  | case1 => trivial
  | case2 f =>
    have hred := hok.2.1
    rw [Recolours]
    by_contra hne
    have := (hred (by simpa using hne)).2
    exact absurd this Bool.false_ne_true
  | case3 f g p ih =>
    have hf := linked_plug_iff.mp hlink
    obtain ⟨⟨hf0, hnear, hfar, hparent, hredf, -, hg0, hgnear, hgfar, hgparent, hredg, hsib, -⟩, -,
        hnodup⟩ := hf
    rw [parentOf] at h
    generalize hx : f.addr = x at h hf0
    cases h with
    | root => exact absurd rfl hf0
    | black hblack => exact .inl (hredf.symm.trans (hx ▸ hblack))
    | red s hchild hne hred hup =>
      subst hx
      rw [hparent, parentOf] at hchild hne hred hup
      have hnot : f.addr ∉ g.sib.toList := by
        intro hmem
        rw [List.nodup_append'] at hnodup
        have hcons := hnodup.2.1
        rw [RbTree.around, List.nodup_cons] at hcons
        refine hcons.1 (List.mem_append_right _ ?_)
        exact List.mem_cons_of_mem _ (List.mem_append_left _ hmem)
      obtain rfl := side_of_child hf0 hnot hgfar hchild
      rw [hgfar] at hne hred
      refine .inr ⟨?_, ?_⟩
      · cases hs : g.sib with
        | nil =>
          rw [hs] at hne
          exact absurd rfl hne
        | node red l a r =>
          rw [hs] at hred hsib
          exact hsib.2.2.2.2.1.symm.trans hred
      · rw [hgparent] at hup
        have hlink' : Rb.Linked t (plug p (g.fill (f.fill T))) := hlink
        obtain ⟨-, -, hokp⟩ := hok.2.2
        exact ih hlink' hokp hup

/-- The call has returned: in place of the nodes of `l` there is a valid tree with the same order,
and no other node has changed. -/
def Mended (t : Rb) (l : List ℕ) (r : Option Rb) : Prop :=
  ∃ t' T, r = some t' ∧ Rb.Linked t' T ∧ T.Valid ∧ T.toList = l ∧ ∀ z, z ≠ 0 → z ∉ l → t.Agree t' z

theorem Mended.of_agree {t₁ : Rb} {l : List ℕ} {r : Option Rb} (h : Mended t₁ l r)
    (hagree : ∀ z, z ≠ 0 → z ∉ l → t.Agree t₁ z) : Mended t l r := by
  obtain ⟨t', T, hr, hlink, hvalid, hlist, hsame⟩ := h
  exact ⟨t', T, hr, hlink, hvalid, hlist, fun z hz hnot => (hagree z hz hnot).trans (hsame z hz hnot)⟩

theorem blacken_root {T : RbTree ℕ} (h : Rb.Linked t T) (hne : T ≠ .nil) (hblack : T.isRed = false) :
    t.root ≠ 0 ∧ Rb.Linked (t.setRed t.root false) T ∧ ∀ z ∉ T.toList,
      t.Agree (t.setRed t.root false) z := by
  cases T with
  | nil => exact absurd rfl hne
  | node red l a r =>
    obtain rfl : red = false := hblack
    have hroot : t.root = a := h.root
    have hmem : a ∈ (RbTree.node false l a r).toList := by simp [RbTree.toList]
    have hlink : Rb.Linked t (plug [] (join .left false l a r)) := h
    rw [hroot]
    exact ⟨h.ne_zero hmem, hlink.setRed false, fun z hz =>
      .setRed (ne_of_mem_of_not_mem hmem hz).symm _⟩

theorem join_ne_nil {s : Side} {red : Bool} {A B : RbTree ℕ} {a : ℕ} : join s red A a B ≠ .nil := by
  cases s <;> simp [join]

theorem plug_ne_nil {T : RbTree ℕ} (h : T ≠ .nil) : plug p T ≠ .nil := by
  induction p generalizing T with
  | nil => exact h
  | cons f p ih => exact ih join_ne_nil

theorem recolour_linked {s su : Side} {f g : Frame ℕ} {A B U V : RbTree ℕ} {x u : ℕ} (hf : f.red = true)
    (hg : g.red = false) (hsib : g.sib = join su true U u V)
    (h : Rb.Linked t (plug (f :: g :: p) (join s true A x B))) :
    Rb.Linked (recolour t u f.addr g.addr) (plug p (join g.side true
      (join f.side false (join s true A x B) f.addr f.sib) g.addr (join su false U u V))) := by
  obtain ⟨sf, redf, f, F⟩ := f
  obtain ⟨sg, redg, g, G⟩ := g
  obtain rfl : redf = true := hf
  obtain rfl : redg = false := hg
  obtain rfl : G = join su true U u V := hsib
  have h₁ : Rb.Linked (t.setRed u false)
      (plug p (join sg false (join sf true (join s true A x B) f F) g (join su false U u V))) :=
    Rb.Linked.setRed_far (p := p) h false
  have h₂ : Rb.Linked ((t.setRed u false).setRed f false)
      (plug (⟨sg, false, g, join su false U u V⟩ :: p) (join sf false (join s true A x B) f F)) :=
    Rb.Linked.setRed (p := ⟨sg, false, g, join su false U u V⟩ :: p) h₁ false
  exact Rb.Linked.setRed (p := p) h₂ true

theorem rbInsertColor_stop {n k : ℕ} {s : Side} {A B : RbTree ℕ} {x : ℕ}
    (hlink : Rb.Linked t (plug p (join s true A x B))) (hok : HoleOk p n) (hsub : (join s true A x B).Ok n)
    (hmay : mayRed p = true) :
    Mended t (plug p (join s true A x B)).toList (rbInsertColor (k + 1) t x) := by
  obtain ⟨hx, -, -, hparent, -⟩ := hlink.fields
  have hvalid : (plug p (join s true A x B)).Valid :=
    RbTree.valid_plug_iff.mpr ⟨n, hok, hsub, fun _ => hmay⟩
  obtain ⟨hroot, hlink', hagree⟩ := blacken_root hlink (plug_ne_nil join_ne_nil) hvalid.1
  refine ⟨_, _, ?_, hlink', hvalid, rfl, fun z _ => hagree z⟩
  have hblack : t.red (t.parent x) = false := by
    cases p with
    | nil => exact absurd hmay Bool.false_ne_true
    | cons f p =>
      obtain ⟨⟨-, -, -, -, hred, -⟩, -⟩ := linked_plug_iff.mp hlink
      rw [hparent, parentOf, hred]
      simpa [mayRed] using hmay
  rw [rbInsertColor, live_of_ne hx, live_of_ne hroot]
  simp [hblack]

/-- A red node below a hole that needs only new colours. -/
theorem rbInsertColor_spec {n k : ℕ} {s : Side} {A B : RbTree ℕ} {x : ℕ}
    (hlink : Rb.Linked t (plug p (join s true A x B))) (hok : HoleOk p n) (hsub : (join s true A x B).Ok n)
    (hrec : Recolours p) (hk : p.length < k) :
    Mended t (plug p (join s true A x B)).toList (rbInsertColor k t x) := by
  obtain ⟨k, rfl⟩ := Nat.exists_eq_succ_of_ne_zero (Nat.ne_zero_of_lt hk)
  induction p using Recolours.induct generalizing t s A B x n k with
  | case1 =>
    obtain ⟨hx, -, -, hparent, -⟩ := hlink.fields
    obtain ⟨hA, hB, -, -⟩ := RbTree.ok_red.mp hsub
    have hroot : t.root = x := hlink.root.trans (RbTree.root_join _ _ _ _ _)
    refine ⟨_, _, ?_, hlink.setRed (p := []) false, ?_, RbTree.toList_join_color _ _ _ _ _ _,
      fun z _ hz => ?_⟩
    · rw [rbInsertColor, hparent, hroot, live_of_ne hx]
      simp [parentOf]
    · exact ⟨RbTree.isRed_join _ _ _ _ _, n + 1, RbTree.ok_black_succ.mpr ⟨hA, hB⟩⟩
    · exact .setRed (fun h => hz (RbTree.mem_join.mpr (.inl h))) _
  | case2 f => exact rbInsertColor_stop hlink hok hsub (by simpa [Recolours, mayRed] using hrec)
  | case3 f g p ih =>
    cases hf : f.red with
    | false => exact rbInsertColor_stop hlink hok hsub (by simp [mayRed, hf])
    | true =>
      obtain ⟨hred, hrec'⟩ := hrec.resolve_left (by simp [hf])
      obtain ⟨hF, hblackF, hokg⟩ := hok
      rw [hf, if_pos rfl] at hokg
      have hg : g.red = false := by simpa [mayRed] using (hblackF hf).2
      obtain ⟨hU, -, hokp⟩ := hokg
      rw [hg, if_neg Bool.false_ne_true] at hokp
      obtain hnil | ⟨red, U, u, V, hsib⟩ := RbTree.eq_nil_or_join .left g.sib
      · rw [hnil] at hred
        exact absurd hred Bool.false_ne_true
      obtain rfl : red = true := by rwa [hsib, RbTree.isRed_join] at hred
      have hlink' := recolour_linked hf hg hsib hlink
      have hsub' : (join g.side true (join f.side false (join s true A x B) f.addr f.sib) g.addr
          (join .left false U u V)).Ok (n + 1) := by
        rw [hsib, RbTree.ok_red] at hU
        rw [RbTree.ok_red, RbTree.ok_black_succ, RbTree.ok_black_succ, RbTree.isRed_join,
          RbTree.isRed_join]
        exact ⟨⟨hsub, hF⟩, ⟨hU.1, hU.2.1⟩, rfl, rfl⟩
      have hk' : p.length < k := by
        rw [List.length_cons, List.length_cons] at hk
        omega
      obtain ⟨k, rfl⟩ := Nat.exists_eq_succ_of_ne_zero (Nat.ne_zero_of_lt hk')
      have hmended := ih hlink' hokp hsub' hrec' k hk'
      have hsame : (plug p (join g.side true (join f.side false (join s true A x B) f.addr f.sib) g.addr
          (join .left false U u V))).toList = (plug (f :: g :: p) (join s true A x B)).toList := by
        refine RbTree.toList_plug_congr (RbTree.toList_join_congr _ _ _ _ ?_ ?_) p
        · exact RbTree.toList_join_color _ _ _ _ _ _
        · rw [hsib]
          exact RbTree.toList_join_color _ _ _ _ _ _
      rw [hsame] at hmended
      obtain ⟨hx, -, -, hparent, -⟩ := hlink.fields
      obtain ⟨⟨hf0, -, -, hfparent, hfred, -, hg0, hgnear, hgfar, -, -, hgsib, -⟩, -, hnodup⟩ :=
        linked_plug_iff.mp hlink
      rw [hsib] at hgfar hgsib
      obtain ⟨hu0, -, -, -, hured, -⟩ := hangs_join.mp hgsib
      rw [RbTree.root_join] at hgfar
      have hrun : rbInsertColor (k + 1 + 1) t x =
          rbInsertColor (k + 1) (recolour t u f.addr g.addr) g.addr := by
        have hne : f.addr ≠ u := by
          rintro rfl
          rw [List.nodup_append', RbTree.around, List.nodup_cons] at hnodup
          refine hnodup.2.1.1 ?_
          simp [RbTree.around, hsib, RbTree.mem_join]
        have hside : sideOf t g.addr f.addr = g.side :=
          sideOf_eq hgnear (by rw [hgfar, hsib, RbTree.root_join]) (by rwa [hsib, RbTree.root_join])
        rw [parentOf] at hparent hfparent
        rw [rbInsertColor]
        simp [hx, hparent, hf0, hfred, hf, hfparent, hg0, hside, hgfar, hu0, hured]
      refine Mended.of_agree (hrun ▸ hmended) fun z _ hz => ?_
      rw [(RbTree.plug_perm _ _).mem_iff] at hz
      simp only [RbTree.around, hsib, List.mem_append, List.mem_cons, RbTree.mem_join, not_or] at hz
      exact ((Rb.Agree.setRed hz.2.2.2.2.1.1 _).trans (.setRed hz.2.1 _)).trans (.setRed hz.2.2.2.1 _)

theorem insert_spec {api : RbApi} (hapi : api.Standard) {k x : ℕ} {s : Side}
    (hlink : Rb.Linked t (plug p .nil))
    (hvalid : (plug p .nil).Valid) (hx : x ≠ 0) (hnot : x ∉ (plug p .nil).toList)
    (hs : ∀ f ∈ p.head?, f.side = s) (hrec : OnlyRecolours t (parentOf 0 p)) (hk : p.length < k) :
    Mended t (RbTree.before p ++ x :: RbTree.behind p)
      (rbInsertColor k (api.linkNode t x (parentOf 0 p) s) x) := by
  have hnot' : x ∉ around p := fun h => hnot ((RbTree.plug_perm _ _).mem_iff.mpr
      (List.mem_append_right _ h))
  obtain ⟨n, hok, hnil, -⟩ := RbTree.valid_plug_iff.mp hvalid
  obtain rfl : n = 0 := hnil
  obtain ⟨hlink', hagree⟩ := hapi.linkNode hlink hx hnot' hs
  have hmended := rbInsertColor_spec (s := .left) hlink' hok ⟨rfl, rfl, rfl, rfl⟩
    (recolours_of_links hlink hok hrec) hk
  have hlist : (plug p (join .left true .nil x .nil)).toList =
      RbTree.before p ++ x :: RbTree.behind p := by
    rw [RbTree.toList_plug]
    rfl
  rw [hlist] at hmended
  refine hmended.of_agree fun z hz hzl => hagree z hz ?_ ?_
  · rintro rfl
    exact hzl (List.mem_append_right _ List.mem_cons_self)
  · intro hmem
    have hplug : (plug p .nil).toList = RbTree.before p ++ RbTree.behind p := RbTree.toList_plug p .nil
    have := (RbTree.plug_perm p .nil).mem_iff.mpr (List.mem_append_right _ hmem)
    rw [hplug, List.mem_append] at this
    rw [List.mem_append, List.mem_cons, not_or, not_or] at hzl
    exact this.elim hzl.1 hzl.2.2

end

end GcAos.Sched
