import GcAos.Sched.RbInsert

/-! Deletions, except those of a left child that has two children itself. -/

namespace GcAos.Sched
open Lib
open Lib.RbTree (join plug around parentOf Frame HoleOk mayRed)

variable {api : RbApi} {t : Rb} {p : List (Frame ℕ)} {T : RbTree ℕ}

/-! `rb_erase_color`: on the way to the hole there is one black node too few. -/

theorem mem_plug_join {s : Side} {red : Bool} {A B : RbTree ℕ} {x : ℕ} :
    x ∈ (plug p (join s red A x B)).toList := by
  rw [(RbTree.plug_perm _ _).mem_iff]
  exact List.mem_append_left _ (RbTree.mem_join.mpr (.inl rfl))

theorem agree_setRed {l : List ℕ} {x : ℕ} (hx : x ∈ l) (b : Bool) (t : Rb) {z : ℕ} (hz : z ∉ l) :
    t.Agree (t.setRed x b) z := .setRed (ne_of_mem_of_not_mem hx hz).symm b

theorem rbEraseColor_red {n k P : ℕ} {s : Side} {A B : RbTree ℕ} {x : ℕ}
    (hlink : Rb.Linked t (plug p (join s true A x B))) (hA : A.Ok n) (hB : B.Ok n)
      (hok : HoleOk p (n + 1)) :
    Mended t (plug p (join s true A x B)).toList (rbEraseColor api (k + 1) t x P) := by
  obtain ⟨hx, -, -, -, hred⟩ := hlink.fields
  refine ⟨_, _, ?_, hlink.setRed false, ?_, ?_, fun z _ hz => agree_setRed mem_plug_join _ _ hz⟩
  · rw [rbEraseColor, if_neg fun h => ?_, if_neg hx]
    rcases h.1 with h | h
    · exact hx h
    · rw [hred] at h
      exact Bool.noConfusion h
  · refine RbTree.valid_plug_iff.mpr ⟨n + 1, hok, RbTree.ok_black_succ.mpr ⟨hA, hB⟩, fun h => ?_⟩
    rw [RbTree.isRed_join] at h
    exact Bool.noConfusion h
  · exact RbTree.toList_plug_congr (RbTree.toList_join_color _ _ _ _ _ _) p

theorem eraseOuter_spec (hapi : api.Standard) {n : ℕ} {s : Side} {red : Bool} {x y w : ℕ}
    {N F G : RbTree ℕ}
    (hlink : Rb.Linked t (plug p (join s red T x (join s false N y (join s true F w G))))) (hT : T.Ok n)
    (hN : N.Ok n) (hF : (join s true F w G).Ok n)
    (hok : HoleOk p (if red then n + 1 else n + 2)) (hmay : red = true → mayRed p = true) :
    Mended t (plug p (join s red T x (join s false N y (join s true F w G)))).toList
      (eraseOuter api s t x y) := by
  obtain ⟨hx, -, -, -, hred⟩ := hlink.fields
  have hfar := hlink
  rw [RbTree.plug_far] at hfar
  obtain ⟨hy, -, hyw, -, -⟩ := hfar.fields
  rw [RbTree.root_join] at hyw
  rw [RbTree.plug_far] at hfar
  obtain ⟨hw, -⟩ := hfar.fields
  have h₁ := (hlink.setRed_far red).setRed false
  have h₂ : Rb.Linked (((t.setRed y red).setRed x false).setRed w false)
      (plug p (join s false T x (join s red N y (join s false F w G)))) := by
    rw [RbTree.plug_far] at h₁ ⊢
    exact h₁.setRed_far false
  obtain ⟨h₃, hagree₃⟩ := hapi.rotate h₂
  generalize ht₃ : api.rotate s (((t.setRed y red).setRed x false).setRed w false) x = t₃ at h₃ hagree₃
  have hvalid : (plug p (join s red (join s false T x N) y (join s false F w G))).Valid := by
    obtain ⟨hF, hG, -⟩ := RbTree.ok_red.mp hF
    refine RbTree.valid_plug_iff.mpr ⟨_, hok, RbTree.ok_join (RbTree.ok_black_succ.mpr ⟨hT, hN⟩)
      (RbTree.ok_black_succ.mpr ⟨hF, hG⟩) (RbTree.isRed_join _ _ _ _ _)
        (RbTree.isRed_join _ _ _ _ _), ?_⟩
    rw [RbTree.isRed_join]
    exact hmay
  obtain ⟨hroot, h₄, hagree₄⟩ := blacken_root h₃ (plug_ne_nil join_ne_nil) hvalid.1
  have hlist : (plug p (join s red (join s false T x N) y (join s false F w G))).toList =
      (plug p (join s red T x (join s false N y (join s true F w G)))).toList := by
    refine RbTree.toList_plug_congr ?_ p
    rw [← RbTree.toList_rotate s (r := false) (q := false)]
    exact RbTree.toList_join_congr _ _ _ _ rfl
      (RbTree.toList_join_congr _ _ _ _ rfl (RbTree.toList_join_color _ _ _ _ _ _))
  have hlist₂ : (plug p (join s false T x (join s red N y (join s false F w G)))).toList =
      (plug p (join s red T x (join s false N y (join s true F w G)))).toList := by
    rw [← hlist]
    exact RbTree.toList_plug_congr (RbTree.toList_rotate s) p
  refine ⟨_, _, ?_, h₄, hvalid, hlist, fun z hz hnot => ?_⟩
  · unfold eraseOuter
    simp [hy, hred, hyw, hw, ht₃, hroot]
  · have hzy : z ≠ y := fun h => hnot (by rw [h, RbTree.plug_far]; exact mem_plug_join)
    have hzx : z ≠ x := fun h => hnot (by rw [h]; exact mem_plug_join)
    have hzw : z ≠ w := fun h => hnot (by rw [h, RbTree.plug_far, RbTree.plug_far]; exact mem_plug_join)
    have hagree : t.Agree (((t.setRed y red).setRed x false).setRed w false) z :=
      ((Rb.Agree.setRed hzy _).trans (.setRed hzx _)).trans (.setRed hzw _)
    refine (hagree.trans (hagree₃ z hz ?_)).trans (hagree₄ z ?_)
    · rwa [hlist₂]
    · rwa [hlist]

theorem blackAt_root {P : ℕ} (h : t.Hangs P T) : BlackAt t T.root ↔ T.isRed = false := by
  cases T with
  | nil => exact ⟨fun _ => rfl, fun _ => .inl rfl⟩
  | node red l a r =>
    obtain ⟨ha, -, -, -, hred, -⟩ := h
    unfold BlackAt
    rw [RbTree.root, hred, or_iff_right ha, RbTree.isRed]

theorem blackAt_children {P y : ℕ} {s : Side} {red : Bool} {N F : RbTree ℕ}
    (h : t.Hangs P (join s red N y F)) :
    (BlackAt t (t.child .left y) ∧ BlackAt t (t.child .right y) ↔ N.isRed = false ∧ F.isRed = false) ∧
      (BlackAt t (t.child s.flip y) ↔ F.isRed = false) := by
  obtain ⟨-, hN, hF, -, -, hhN, hhF⟩ := hangs_join.mp h
  have hfar : BlackAt t (t.child s.flip y) ↔ F.isRed = false := by rw [hF, blackAt_root hhF]
  have hnear : BlackAt t (t.child s y) ↔ N.isRed = false := by rw [hN, blackAt_root hhN]
  refine ⟨?_, hfar⟩
  rw [← hnear, ← hfar]
  cases s with
  | left => rfl
  | right => exact and_comm

theorem eraseInner_spec (hapi : api.Standard) {s : Side} {red : Bool} {x y w : ℕ} {C D F : RbTree ℕ}
    (hlink : Rb.Linked t (plug p (join s red T x (join s false (join s true C w D) y F)))) :
    (eraseInner api s t x y).2 = w ∧
      Rb.Linked (eraseInner api s t x y).1 (plug p
        (join s red T x (join s false C w (join s true D y F)))) ∧
      ∀ z, z ≠ 0 → z ∉ (plug p (join s red T x (join s false (join s true C w D) y F))).toList →
        t.Agree (eraseInner api s t x y).1 z := by
  have hfar := hlink
  rw [RbTree.plug_far] at hfar
  have hyw : t.child s y = w := by
    rw [hfar.fields.2.1, RbTree.root_join]
  have h₁ : Rb.Linked (t.setRed w false)
      (plug (⟨s.flip, red, x, T⟩ :: p) (join s false (join s false C w D) y F)) :=
    Rb.Linked.setRed (p := ⟨s, false, y, F⟩ :: ⟨s.flip, red, x, T⟩ :: p) hfar false
  have h₂ : Rb.Linked ((t.setRed w false).setRed y true)
      (plug (⟨s.flip, red, x, T⟩ :: p) (join s.flip true F y (join s.flip false D w C))) := by
    rw [RbTree.join_flip, RbTree.join_flip]
    exact h₁.setRed true
  obtain ⟨h₃, hagree⟩ := hapi.rotate h₂
  unfold eraseInner
  rw [hyw]
  generalize api.rotate s.flip ((t.setRed w false).setRed y true) y = t₃ at h₃ hagree
  rw [RbTree.join_flip, RbTree.join_flip, ← RbTree.plug_far] at h₃
  refine ⟨?_, h₃, fun z hz hnot => ?_⟩
  · exact h₃.fields.2.2.1.trans (RbTree.root_join _ _ _ _ _)
  · rw [RbTree.plug_far] at hnot
    have hzy : z ≠ y := fun h => hnot (h ▸ mem_plug_join)
    have hzw : z ≠ w := fun h => hnot (h ▸ mem_plug_join
        (p := ⟨s, false, y, F⟩ :: ⟨s.flip, red, x, T⟩ :: p))
    refine ((Rb.Agree.setRed hzw _).trans (.setRed hzy _)).trans (hagree z hz ?_)
    rw [RbTree.join_flip, RbTree.join_flip]
    rwa [RbTree.toList_plug_congr (RbTree.toList_join_congr s true false y
      (RbTree.toList_join_color s false true C w D) rfl)]

theorem eraseBlack_spec (hapi : api.Standard) {loop : Rb → ℕ → ℕ → Option Rb} {n : ℕ} {s : Side}
    {red : Bool}
    {x y : ℕ} {N F : RbTree ℕ} (hlink : Rb.Linked t (plug p (join s red T x (join s false N y F))))
    (hT : T.Ok n) (hN : N.Ok n) (hF : F.Ok n) (hok : HoleOk p (if red then n + 1 else n + 2))
    (hmay : red = true → mayRed p = true)
    (hloop : ∀ t', Rb.Linked t' (plug p (join s red T x (join s true N y F))) → N.isRed = false →
      F.isRed = false → Mended t' (plug p (join s red T x (join s true N y F))).toList
        (loop t' x (parentOf 0 p))) :
    Mended t (plug p (join s red T x (join s false N y F))).toList (eraseBlack api loop s t x y) := by
  have hfar := hlink
  rw [RbTree.plug_far] at hfar
  have hy : y ≠ 0 := hfar.fields.1
  obtain ⟨hboth, houter⟩ := blackAt_children (linked_plug_iff.mp hfar).2.1
  by_cases hNF : N.isRed = false ∧ F.isRed = false
  · have hrun : eraseBlack api loop s t x y = loop (t.setRed y true) x (parentOf 0 p) := by
      have hparent : t.parent x = parentOf 0 p := hlink.fields.2.2.2.1
      simp [eraseBlack, hy, hboth.mpr hNF, hparent]
    have hlist : (plug p (join s red T x (join s true N y F))).toList =
        (plug p (join s red T x (join s false N y F))).toList :=
      RbTree.toList_plug_congr (RbTree.toList_join_congr _ _ _ _ rfl
        (RbTree.toList_join_color _ _ _ _ _ _)) p
    have hmended := hloop _ (hlink.setRed_far true) hNF.1 hNF.2
    rw [hrun, ← hlist]
    refine hmended.of_agree fun z _ hz => .setRed (fun h => hz ?_) _
    rw [h, RbTree.plug_far]
    exact mem_plug_join
  · cases hFred : F.isRed with
    | true =>
      obtain rfl | ⟨red', F', w, G, rfl⟩ := RbTree.eq_nil_or_join s F
      · exact absurd hFred Bool.false_ne_true
      obtain rfl : red' = true := by rwa [RbTree.isRed_join] at hFred
      have hrun : eraseBlack api loop s t x y = eraseOuter api s t x y := by
        simp [eraseBlack, hy, hboth, houter]
      rw [hrun]
      exact eraseOuter_spec hapi hlink hT hN hF hok hmay
    | false =>
      obtain rfl | ⟨red', C, w, D, rfl⟩ := RbTree.eq_nil_or_join s N
      · exact absurd ⟨rfl, hFred⟩ hNF
      obtain rfl : red' = true := by
        rw [RbTree.isRed_join] at hNF
        simpa [hFred] using hNF
      obtain ⟨hC, hD, hCred, hDred⟩ := RbTree.ok_red.mp hN
      obtain ⟨hother, hlink', hagree⟩ := eraseInner_spec hapi hlink
      have hrun : eraseBlack api loop s t x y = eraseOuter api s (eraseInner api s t x y).1 x w := by
        rw [← hother]
        simp [eraseBlack, hy, hboth, houter, hFred]
      rw [hrun]
      have hmended := eraseOuter_spec hapi hlink' hT hC
          (RbTree.ok_red.mpr ⟨hD, hF, hDred, hFred⟩) hok hmay
      have hlist : (plug p (join s red T x (join s false C w (join s true D y F)))).toList =
          (plug p (join s red T x (join s false (join s true C w D) y F))).toList :=
        RbTree.toList_plug_congr (RbTree.toList_join_congr _ _ _ _ rfl (RbTree.toList_rotate s)) p
      rw [hlist] at hmended
      exact hmended.of_agree hagree

theorem eraseRed_spec (hapi : api.Standard) {s : Side} {x y : ℕ} {N F : RbTree ℕ}
    (hlink : Rb.Linked t (plug p (join s false T x (join s true N y F)))) :
    (eraseRed api s t x y).2 = N.root ∧
      Rb.Linked (eraseRed api s t x y).1 (plug (⟨s, false, y, F⟩ :: p) (join s true T x N)) ∧
      ∀ z, z ≠ 0 → z ∉ (plug p (join s false T x (join s true N y F))).toList →
        t.Agree (eraseRed api s t x y).1 z := by
  obtain ⟨h₃, hagree⟩ := hapi.rotate ((hlink.setRed_far false).setRed true)
  unfold eraseRed
  generalize api.rotate s ((t.setRed y false).setRed x true) x = t₃ at h₃ hagree
  have h₄ : Rb.Linked t₃ (plug (⟨s, false, y, F⟩ :: p) (join s true T x N)) := h₃
  refine ⟨h₄.fields.2.2.1, h₃, fun z hz hnot => ?_⟩
  have hzx : z ≠ x := fun h => hnot (h ▸ mem_plug_join)
  have hzy : z ≠ y := fun h => hnot (by rw [h, RbTree.plug_far]; exact mem_plug_join)
  refine ((Rb.Agree.setRed hzy _).trans (.setRed hzx _)).trans (hagree z hz ?_)
  rwa [RbTree.toList_plug_congr (RbTree.toList_join_congr s true false x rfl
    (RbTree.toList_join_color s false true N y F))]

theorem root_plug_mem {f : Frame ℕ} : (plug (f :: p) T).root ∈ around (f :: p) := by
  induction p generalizing f T with
  | nil =>
    rw [plug, plug, Frame.fill, RbTree.root_join]
    exact List.mem_cons_self
  | cons g p ih =>
    rw [plug, around]
    exact List.mem_cons_of_mem _ (List.mem_append_right _ ih)

theorem root_ne_root {f : Frame ℕ} (hlink : Rb.Linked t (plug (f :: p) T)) : T.root ≠ t.root := by
  intro h
  have hmem : T.root ∈ around (f :: p) := by
    rw [h, hlink.root]
    exact root_plug_mem
  have hne := hlink.ne_zero ((RbTree.plug_perm _ _).mem_iff.mpr (List.mem_append_right _ hmem))
  exact (List.nodup_append'.mp hlink.nodup_plug).2.2 (RbTree.root_mem hne) hmem

theorem rbEraseColor_spec (hapi : api.Standard) {n k : ℕ} (hlink : Rb.Linked t (plug p T)) (hT : T.Ok n)
    (hok : HoleOk p (n + 1)) (hk : p.length < k) :
    Mended t (plug p T).toList (rbEraseColor api k t T.root (parentOf 0 p)) := by
  induction p generalizing t T n k with
  | nil =>
    obtain ⟨k, rfl⟩ := Nat.exists_eq_succ_of_ne_zero (Nat.ne_zero_of_lt hk)
    obtain rfl | ⟨red, A, x, B, rfl⟩ := RbTree.eq_nil_or_join .left T
    · have hroot : t.root = 0 := hlink.root
      refine ⟨t, .nil, ?_, hlink, ⟨rfl, 0, rfl⟩, rfl, fun z _ _ => .refl t z⟩
      rw [rbEraseColor, hroot, RbTree.root, if_neg fun h => h.2 rfl, if_pos rfl]
    · cases red with
      | true =>
        obtain ⟨hA, hB, -, -⟩ := RbTree.ok_red.mp hT
        rw [RbTree.root_join]
        exact rbEraseColor_red hlink hA hB hok
      | false =>
        have hroot : t.root = x := hlink.root
        refine ⟨_, _, ?_, hlink.setRed (p := []) false, ⟨rfl, n, hT⟩, rfl, fun z _ hz => ?_⟩
        · rw [rbEraseColor, RbTree.root_join, hroot, if_neg fun h => h.2 rfl, if_neg hlink.fields.1]
        · exact agree_setRed (mem_plug_join (p := [])) _ _ hz
  | cons f p ih =>
    obtain ⟨k, rfl⟩ := Nat.exists_eq_succ_of_ne_zero (Nat.ne_zero_of_lt hk)
    have hk' : p.length < k := Nat.lt_of_succ_lt_succ hk
    obtain ⟨k, rfl⟩ := Nat.exists_eq_succ_of_ne_zero (Nat.ne_zero_of_lt hk')
    cases hTred : T.isRed with
    | true =>
      obtain rfl | ⟨red, A, w, B, rfl⟩ := RbTree.eq_nil_or_join .left T
      · exact absurd hTred Bool.false_ne_true
      obtain rfl : red = true := by rwa [RbTree.isRed_join] at hTred
      obtain ⟨hA, hB, -, -⟩ := RbTree.ok_red.mp hT
      rw [RbTree.root_join]
      exact rbEraseColor_red hlink hA hB hok
    | false =>
      have hroot := root_ne_root hlink
      obtain ⟨s, red, x, S⟩ := f
      obtain ⟨hS, hmay, hokp⟩ := hok
      dsimp only at hS hmay hokp
      obtain ⟨⟨hx, hnear, hfar, -, -, hhS, -⟩, hhT, hnodup⟩ := linked_plug_iff.mp hlink
      dsimp only at hx hnear hfar hhS
      have hblack : BlackAt t T.root := (blackAt_root hhT).mpr hTred
      obtain rfl | ⟨rs, N, y, F, rfl⟩ := RbTree.eq_nil_or_join s S
      · exact absurd hS (Nat.succ_ne_zero n)
      obtain ⟨hy, -, -, -, hredy, -⟩ := hangs_join.mp hhS
      rw [RbTree.root_join] at hfar
      have hside : sideOf t x T.root = s := by
        refine sideOf_eq (f := ⟨s, red, x, join s rs N y F⟩) hnear ?_ ?_
        · rw [hfar, RbTree.root_join]
        · rw [RbTree.root_join]
          refine (RbTree.root_ne hy fun hmem => ?_).symm
          refine (List.nodup_append'.mp hnodup).2.2 hmem (List.mem_cons_of_mem _ ?_)
          exact List.mem_append_left _ (RbTree.mem_join.mpr (.inl rfl))
      rw [parentOf]
      change Mended t (plug p (join s red T x (join s rs N y F))).toList _
      change Rb.Linked t (plug p (join s red T x (join s rs N y F))) at hlink
      cases rs with
      | true =>
        have hred : red = false := by
          by_contra hne
          exact absurd (hmay (by simpa using hne)).1 (by rw [RbTree.isRed_join]; decide)
        subst hred
        obtain ⟨hN, hF, hNred, -⟩ := RbTree.ok_red.mp hS
        obtain rfl | ⟨rn, N₁, w, N₂, rfl⟩ := RbTree.eq_nil_or_join s N
        · exact absurd hN (Nat.succ_ne_zero n)
        obtain rfl : rn = false := by rwa [RbTree.isRed_join] at hNred
        obtain ⟨hN₁, hN₂⟩ := RbTree.ok_black_succ.mp hN
        obtain ⟨hother, hlink', hagree⟩ := eraseRed_spec hapi hlink
        have hok' : HoleOk (⟨s, false, y, F⟩ :: p) (n + 1) := RbTree.holeOk_black.mpr ⟨hF, hokp⟩
        have hmended : Mended (eraseRed api s t x y).1 _
            (eraseBlack api (rbEraseColor api (k + 1)) s (eraseRed api s t x y).1 x w) :=
          eraseBlack_spec hapi hlink' hT hN₁ hN₂ hok' (fun _ => rfl) fun t' ht' h₁ h₂ =>
            rbEraseColor_red ht' hT (RbTree.ok_red.mpr ⟨hN₁, hN₂, h₁, h₂⟩) hok'
        have hrun : rbEraseColor api (k + 1 + 1) t T.root x =
            eraseBlack api (rbEraseColor api (k + 1)) s (eraseRed api s t x y).1 x w := by
          rw [RbTree.root_join] at hother
          rw [← hother, rbEraseColor, if_pos ⟨hblack, hroot⟩]
          simp [hx, hside, hfar, hy, hredy]
        rw [hrun]
        refine Mended.of_agree ?_ hagree
        have hlist : (plug (⟨s, false, y, F⟩ :: p) (join s true T x (join s false N₁ w N₂))).toList =
            (plug p (join s false T x (join s true (join s false N₁ w N₂) y F))).toList :=
          RbTree.toList_plug_congr (RbTree.toList_rotate s).symm p
        rwa [hlist] at hmended
      | false =>
        obtain ⟨hN, hF⟩ := RbTree.ok_black_succ.mp hS
        have hrun : rbEraseColor api (k + 1 + 1) t T.root x =
            eraseBlack api (rbEraseColor api (k + 1)) s t x y := by
          rw [rbEraseColor, if_pos ⟨hblack, hroot⟩]
          simp [hx, hside, hfar, hy, hredy]
        rw [hrun]
        refine eraseBlack_spec hapi hlink hT hN hF hokp (fun h => (hmay h).2) fun t' ht' h₁ h₂ => ?_
        have hS' : (join s true N y F).Ok n := RbTree.ok_red.mpr ⟨hN, hF, h₁, h₂⟩
        cases red with
        | true => exact rbEraseColor_red ht' hT hS' hokp
        | false =>
          have hmended := ih ht' (RbTree.ok_black_succ.mpr ⟨hT, hS'⟩) hokp hk'
          rwa [RbTree.root_join] at hmended

/-! `rb_erase`. -/

theorem relink_again {old new : ℕ} (h : t.Seg 0 p t.root new) (hside : ∀ f ∈ p.head?, f.side = .right)
    (hnodup : (around p).Nodup) (hold : old ≠ 0) (hnot : old ∉ around p) :
    (t.relink (parentOf 0 p) old new).Seg 0 p (t.relink (parentOf 0 p) old new).root new := by
  cases p with
  | nil => rfl
  | cons f p =>
    obtain ⟨hf, -, hfar, -⟩ := id h
    have hright : f.side = .right := hside f rfl
    rw [hright] at hfar
    have hne : t.child .left f.addr ≠ old := by
      rw [Side.flip] at hfar
      rw [hfar]
      refine (RbTree.root_ne hold fun hmem => hnot ?_).symm
      exact List.mem_cons_of_mem _ (List.mem_append_left _ hmem)
    have hrelink : t.relink f.addr old new = t.setChild f.side f.addr new := by
      rw [Rb.relink, if_neg hf, if_neg hne, hright]
    rw [parentOf, hrelink]
    exact h.setChild hnodup new

/-- The node `y` is in the place of `old` already and has its right subtree. -/
theorem takePlace_spec {old y : ℕ} {redo : Bool} {L R : RbTree ℕ} (hseg : t.Seg 0 p t.root y)
    (hside : ∀ f ∈ p.head?, f.side = .right) (hy : y ≠ 0) (hR : t.Hangs y R)
      (hyR : t.child .right y = R.root)
    (hL : t.Hangs old L) (hLne : L.root ≠ 0) (hchild : t.child .left old = L.root)
    (hparent : t.parent old = parentOf 0 p) (hred : t.red old = redo) (hold : old ≠ 0)
    (hnodup : (old :: y :: (L.toList ++ (R.toList ++ around p))).Nodup) :
    Rb.Linked (takePlace t old y) (plug p (.node redo L y R)) ∧
      ∀ z, z ≠ 0 → z ∉ (plug p (.node redo L y R)).toList → t.Agree (takePlace t old y) z := by
  simp only [List.nodup_cons, List.mem_cons, List.mem_append, not_or] at hnodup
  obtain ⟨⟨holdy, holdL, -, holdp⟩, ⟨hyL, hyR', hyp⟩, hrest⟩ := hnodup
  rw [List.nodup_append', List.nodup_append'] at hrest
  obtain ⟨hnodupL, ⟨hnodupR, hnodupp, hRp⟩, hLRp⟩ := hrest
  have holdroot : old ≠ L.root := RbTree.root_ne hold holdL
  have hmem : L.root ∈ L.toList := RbTree.root_mem hLne
  generalize ht₂ : (t.setChild .left y L.root).reparent L.root y = t₂
  have heq : takePlace t old y = ((t₂.relink (parentOf 0 p) old y).setParent y
      (parentOf 0 p)).setRed y redo := by
    rw [← ht₂]
    unfold takePlace
    simp [Rb.reparent, hchild, hparent, hred, hLne, holdy, holdroot]
  have hagree₂ : ∀ z, z ≠ y → z ≠ L.root → t.Agree t₂ z := by
    intro z hzy hzL
    rw [← ht₂]
    exact (Rb.Agree.setChild hzy _ _).trans (.reparent hzL _)
  have hagree : ∀ z, z ≠ y → z ≠ parentOf 0 p → t₂.Agree (takePlace t old y) z := by
    intro z hzy hzP
    rw [heq]
    exact ((Rb.Agree.relink hzP _ _).trans (.setParent hzy _)).trans (.setRed hzy _)
  have hperm : (plug p (.node redo L y R)).toList.Perm (y :: (L.toList ++ (R.toList ++ around p))) := by
    refine (RbTree.plug_perm _ _).trans ?_
    rw [RbTree.toList, List.append_assoc, List.cons_append]
    exact List.perm_middle
  have hyP : y ≠ parentOf 0 p := RbTree.ne_parentOf hy hyp
  have hyroot : y ≠ L.root := RbTree.root_ne hy hyL
  refine ⟨?_, fun z hz hnot => ?_⟩
  · rw [linked_plug_iff]
    refine ⟨?_, ⟨hy, ?_, ?_, ?_, ?_, ?_, ?_⟩, ?_⟩
    · have hseg₂ : t₂.Seg 0 p t₂.root y := by
        have hroot : t₂.root = t.root := by
          rw [← ht₂, Rb.reparent_root, Rb.setChild_root]
        rw [hroot]
        refine hseg.congr fun z hz => hagree₂ z (ne_of_mem_of_not_mem hz hyp) ?_
        exact fun h => hLRp hmem (List.mem_append_right _ (h ▸ hz))
      rw [heq]
      refine (relink_again hseg₂ hside hnodupp hold holdp).congr fun z hz => ?_
      have hzy := ne_of_mem_of_not_mem hz hyp
      exact (Rb.Agree.setParent hzy _).trans (.setRed hzy _)
    · simp [heq, Rb.relink_child_of_ne hyP, ← ht₂]
    · simp [heq, Rb.relink_child_of_ne hyP, ← ht₂, hyR]
    · simp [heq]
    · simp [heq]
    · have hL₂ : t₂.Hangs y L := by
        rw [← ht₂]
        refine Rb.Hangs.reparent (P := old) (hL.congr fun z hz => ?_) hnodupL y
        exact .setChild (ne_of_mem_of_not_mem hz hyL) _ _
      refine hL₂.congr fun z hz => hagree z (ne_of_mem_of_not_mem hz hyL) ?_
      exact RbTree.ne_parentOf (hL.ne_zero hz) fun hp => hLRp hz (List.mem_append_right _ hp)
    · refine hR.congr fun z hz => (hagree₂ z ?_ ?_).trans (hagree z ?_ ?_)
      · exact ne_of_mem_of_not_mem hz hyR'
      · exact fun h => hLRp hmem (List.mem_append_left _ (h ▸ hz))
      · exact ne_of_mem_of_not_mem hz hyR'
      · exact RbTree.ne_parentOf (hR.ne_zero hz) fun hp => hRp hz hp
    · rw [← (RbTree.plug_perm _ _).nodup_iff, hperm.nodup_iff, List.nodup_cons, List.mem_append,
        List.mem_append, not_or, not_or, List.nodup_append', List.nodup_append']
      exact ⟨⟨hyL, hyR', hyp⟩, hnodupL, ⟨hnodupR, hnodupp, hRp⟩, hLRp⟩
  · rw [hperm.mem_iff, List.mem_cons, List.mem_append, List.mem_append, not_or, not_or, not_or] at hnot
    obtain ⟨hzy, hzL, -, hzp⟩ := hnot
    exact (hagree₂ z hzy (RbTree.root_ne hz hzL)).trans (hagree z hzy (RbTree.ne_parentOf hz hzp))

theorem unlinkNext_root (old node child parent : ℕ) :
    (unlinkNext t old node child parent).root = t.root := by
  simp [unlinkNext]

theorem unlinkNext_spec {old y : ℕ} {g : Frame ℕ} {q : List (Frame ℕ)} {rs : Bool} {u : RbTree ℕ}
    (hR : t.Hangs old (plug (g :: q) (.node rs .nil y u)))
    (hright : t.child .right old = (plug (g :: q) (.node rs .nil y u)).root) (hg : g.side = .left)
    (hnodup : (old :: y :: (u.toList ++ around (g :: q))).Nodup) :
    (unlinkNext t old y u.root g.addr).Hangs y (plug (g :: q) u) ∧
      (unlinkNext t old y u.root g.addr).child .right y = (plug (g :: q) u).root ∧
      ∀ z, z ≠ 0 → z ≠ y → z ∉ u.toList ++ around (g :: q) →
        t.Agree (unlinkNext t old y u.root g.addr) z := by
  rw [List.nodup_cons, List.nodup_cons, List.mem_cons, not_or] at hnodup
  obtain ⟨⟨holdy, -⟩, hynot, hnodup⟩ := hnodup
  have hR' : t.Hangs old (plug (g :: q) (join .right rs u y .nil)) := hR
  obtain ⟨hm, hroot⟩ := hR'.unlink hnodup
  rw [hg] at hm
  generalize hmem : (t.reparent u.root g.addr).setChild .left g.addr u.root = m at hm
  have hin : (plug (g :: q) u).root ∈ around (g :: q) := root_plug_mem
  have hne : (plug (g :: q) u).root ≠ 0 := by
    rw [hroot]
    exact hR'.ne_zero ((RbTree.plug_perm _ _).mem_iff.mpr (List.mem_append_right _ root_plug_mem))
  have heq : unlinkNext t old y u.root g.addr =
      (m.setChild .right y (plug (g :: q) u).root).reparent (plug (g :: q) u).root y := by
    have hrightm : m.child .right old = (plug (g :: q) u).root := by
      rw [hroot, ← hmem, Rb.setChild_child, if_neg fun h => Side.noConfusion h.1, Rb.reparent_child]
      exact hright
    unfold unlinkNext
    rw [hmem]
    simp [hrightm, holdy, Rb.reparent, hne]
  rw [heq]
  refine ⟨Rb.Hangs.reparent (P := old) (hm.congr fun z hz => ?_) ?_ y, ?_, fun z hz hzy hnot => ?_⟩
  · rw [(RbTree.plug_perm _ _).mem_iff] at hz
    exact .setChild (ne_of_mem_of_not_mem hz hynot) _ _
  · exact (RbTree.plug_perm _ _).nodup_iff.mpr hnodup
  · simp
  · rw [List.mem_append, not_or] at hnot
    have hzg : z ≠ g.addr := fun h => hnot.2 (by rw [h]; exact List.mem_cons_self)
    have hzm : t.Agree m z := by
      rw [← hmem]
      exact (Rb.Agree.reparent (RbTree.root_ne hz hnot.1) _).trans (.setChild hzg _ _)
    exact (hzm.trans (.setChild hzy _ _)).trans (.reparent (ne_of_mem_of_not_mem hin hnot.2).symm _)

theorem eraseTwo_spec {k : ℕ} {q : List (Frame ℕ)} {redo rs : Bool} {L u : RbTree ℕ} {old y : ℕ}
    (hlink : Rb.Linked t (plug p (.node redo L old (plug q (.node rs .nil y u))))) (hL : L ≠ .nil)
    (hq : ∀ f ∈ q, f.side = .left) (hside : ∀ f ∈ p.head?, f.side = .right)
    (hk : (plug q (.node rs .nil y u)).size ≤ k) :
    ∃ m, eraseTwo k t old = some ⟨m, u.root, parentOf y q, rs⟩ ∧
      Rb.Linked m (plug p (.node redo L y (plug q u))) ∧
      ∀ z, z ≠ 0 → z ∉ (plug p (.node redo L y (plug q u))).toList → t.Agree m z := by
  obtain ⟨hseg, ⟨hold, hleft, hright, hparent, hred, hhL, hhR⟩, hnodup⟩ := linked_plug_iff.mp hlink
  have hsucc : t.leftmost k (t.child .right old) = some y := by
    rw [hright, hhR.leftmost (plug_ne_nil (by simp)) hk, RbTree.toList_plug, RbTree.before_eq_nil hq]
    rfl
  obtain ⟨-, hy, -, hyr, hyparent, hyred, -, hhu⟩ := hangs_plug.mp hhR
  have hflat : (old :: y :: (L.toList ++ ((u.toList ++ around q) ++ around p))).Nodup := by
    have hperm : (RbTree.node redo L old (plug q (.node rs .nil y u))).toList.Perm
        (old :: y :: (L.toList ++ (u.toList ++ around q))) :=
      List.perm_middle.trans
        (.cons old (((RbTree.plug_perm q _).append_left L.toList).trans List.perm_middle))
    have hnd := (hperm.append_right (around p)).nodup_iff.mp hnodup
    simpa only [List.cons_append, List.append_assoc] using hnd
  have hflat' := hflat
  simp only [List.nodup_cons, List.mem_cons, List.mem_append, not_or] at hflat'
  obtain ⟨⟨holdy, holdL, ⟨holdu, holdq⟩, holdp⟩, ⟨hyL, ⟨hyu, hyq⟩, hynotp⟩, hrest⟩ := hflat'
  rw [List.nodup_append', List.nodup_append'] at hrest
  obtain ⟨-, ⟨huq, hnodupp, hRp⟩, hLRp⟩ := hrest
  have hLroot : L.root ≠ 0 := hhL.root_ne_zero hL
  generalize ht₁ : t.relink (parentOf 0 p) old y = t₁
  have hagree₁ : ∀ z, z ≠ parentOf 0 p → t.Agree t₁ z := by
    intro z hz
    rw [← ht₁]
    exact .relink hz _ _
  have hseg₁ : t₁.Seg 0 p t₁.root y := by
    rw [← ht₁]
    exact hseg.relink hold (List.nodup_cons.mpr ⟨holdp, hnodupp⟩) y
  have hold₁ := hagree₁ old (RbTree.ne_parentOf hold holdp)
  have hy₁ := hagree₁ y (RbTree.ne_parentOf hy hynotp)
  have hhL₁ : t₁.Hangs old L := hhL.congr fun z hz =>
    hagree₁ z (RbTree.ne_parentOf (hhL.ne_zero hz) fun hp => hLRp hz (List.mem_append_right _ hp))
  have hhR₁ : t₁.Hangs old (plug q (.node rs .nil y u)) := by
    refine hhR.congr fun z hz => hagree₁ z (RbTree.ne_parentOf (hhR.ne_zero hz) fun hp => ?_)
    rw [(RbTree.plug_perm _ _).mem_iff, RbTree.toList, RbTree.toList, List.nil_append, List.cons_append,
      List.mem_cons] at hz
    rcases hz with rfl | hz
    · exact hynotp hp
    · exact hRp hz hp
  have hyr₁ : t₁.child .right y = u.root := (hy₁.child _).trans hyr
  have hleft₁ : t₁.child .left old = L.root := (hold₁.child _).trans hleft
  have hright₁ : t₁.child .right old = (plug q (.node rs .nil y u)).root := (hold₁.child _).trans hright
  have hparent₁ : t₁.parent old = parentOf 0 p := hold₁.parent.trans hparent
  have hred₁ : t₁.red old = redo := hold₁.red.trans hred
  have hagree : ∀ m, (∀ z, z ≠ 0 → z ∉ (plug p (.node redo L y (plug q u))).toList → t₁.Agree m z) →
      ∀ z, z ≠ 0 → z ∉ (plug p (.node redo L y (plug q u))).toList → t.Agree m z := by
    intro m hm z hz hnot
    refine (hagree₁ z (RbTree.ne_parentOf hz fun hp => hnot ?_)).trans (hm z hz hnot)
    exact (RbTree.plug_perm _ _).mem_iff.mpr (List.mem_append_right _ hp)
  unfold eraseTwo
  rw [hsucc, hparent]
  simp only [Option.bind_eq_bind, Option.bind_some, ht₁, hyr₁, hy₁.parent, hy₁.red, hyparent, hyred]
  cases q with
  | nil =>
    obtain ⟨hlink', hsame⟩ :=
        takePlace_spec hseg₁ hside hy hhR₁.2.2.2.2.2.2 hyr₁ hhL₁ hLroot hleft₁ hparent₁
      hred₁ hold (by simpa [around] using hflat)
    exact ⟨_, if_pos rfl, hlink', hagree _ hsame⟩
  | cons g q =>
    have hg : g.addr ≠ old := fun h => holdq (by rw [← h]; exact List.mem_cons_self)
    have hg0 : g.addr ≠ 0 := hhR.ne_zero ((RbTree.plug_perm _ _).mem_iff.mpr
      (List.mem_append_right _ List.mem_cons_self))
    have hmono : (y :: (u.toList ++ around (g :: q))).Nodup := by
      have hsub : (y :: (u.toList ++ around (g :: q))).Sublist
          (y :: (L.toList ++ ((u.toList ++ around (g :: q)) ++ around p))) :=
        .cons_cons y ((List.sublist_append_left _ _).trans (List.sublist_append_right _ _))
      exact (List.nodup_cons.mp hflat).2.sublist hsub
    have hnodupR : (old :: y :: (u.toList ++ around (g :: q))).Nodup := by
      refine List.nodup_cons.mpr ⟨fun hmem => ?_, hmono⟩
      rw [List.mem_cons, List.mem_append] at hmem
      exact hmem.elim holdy (·.elim holdu holdq)
    obtain ⟨hhR₂, hyr₂, hagree₂⟩ := unlinkNext_spec hhR₁ hright₁ (hq g List.mem_cons_self) hnodupR
    have hroot₂ : (unlinkNext t₁ old y u.root g.addr).root = t₁.root := unlinkNext_root ..
    simp only [parentOf, if_neg hg, live_of_ne hg0, Option.bind_some]
    generalize unlinkNext t₁ old y u.root g.addr = t₂ at hhR₂ hyr₂ hagree₂ hroot₂ ⊢
    have hold₂ := hagree₂ old hold holdy fun hmem => (List.mem_append.mp hmem).elim holdu holdq
    have hseg₂ : t₂.Seg 0 p t₂.root y := by
      rw [hroot₂]
      refine hseg₁.congr fun z hz => hagree₂ z ?_ (ne_of_mem_of_not_mem hz hynotp) fun hmem =>
        hRp hmem hz
      exact hlink.ne_zero ((RbTree.plug_perm _ _).mem_iff.mpr (List.mem_append_right _ hz))
    have hhL₂ : t₂.Hangs old L := hhL₁.congr fun z hz =>
      hagree₂ z (hhL.ne_zero hz) (ne_of_mem_of_not_mem hz hyL) fun hmem =>
        hLRp hz (List.mem_append_left _ hmem)
    have hnodup₂ : (old :: y :: (L.toList ++ ((plug (g :: q) u).toList ++ around p))).Nodup := by
      refine List.Perm.nodup (.cons old (.cons y (.append_left _ (.append_right _ ?_)))) hflat
      exact (RbTree.plug_perm _ _).symm
    obtain ⟨hlink', hsame⟩ := takePlace_spec hseg₂ hside hy hhR₂ hyr₂ hhL₂ hLroot
      ((hold₂.child _).trans hleft₁) (hold₂.parent.trans hparent₁) (hold₂.red.trans hred₁) hold hnodup₂
    refine ⟨_, rfl, hlink', hagree _ fun z hz hnot => (hagree₂ z hz ?_ ?_).trans (hsame z hz hnot)⟩
    · rintro rfl
      exact hnot (mem_plug_join (s := .left))
    · intro hmem
      refine hnot ((RbTree.plug_perm _ _).mem_iff.mpr (List.mem_append_left _ ?_))
      refine (RbTree.mem_join (s := .left)).mpr (.inr (.inr ?_))
      exact (RbTree.plug_perm _ _).mem_iff.mpr hmem

/-- A left child with two children, the pointer to which is replaced twice. -/
def LeftWithTwo (t : Rb) (x : ℕ) : Prop :=
  t.parent x ≠ 0 ∧ t.child .left (t.parent x) = x ∧ t.child .left x ≠ 0 ∧ t.child .right x ≠ 0

instance (t : Rb) (x : ℕ) : Decidable (LeftWithTwo t x) := inferInstanceAs (Decidable (_ ∧ _ ∧ _ ∧ _))

theorem finish_spec (hapi : api.Standard) {n k x : ℕ} {s : Side} {red : Bool} {A : RbTree ℕ}
    (hlink : Rb.Linked t (plug p A)) (hok : HoleOk p n) (hsub : (join s red A x .nil).Ok n)
    (hmay : red = true → mayRed p = true) (hk : p.length < k) :
    Mended t (plug p A).toList (atColor api k ⟨t, A.root, parentOf 0 p, red⟩) := by
  cases red with
  | true =>
    obtain ⟨hA, -, hAred, -⟩ := RbTree.ok_red.mp hsub
    refine ⟨t, _, rfl, hlink, RbTree.valid_plug_iff.mpr ⟨n, hok, hA, fun h => ?_⟩, rfl, fun z _ _ =>
      .refl t z⟩
    rw [hAred] at h
    exact Bool.noConfusion h
  | false =>
    obtain ⟨m, rfl, hA, -⟩ := RbTree.ok_black.mp hsub
    exact rbEraseColor_spec hapi hlink hA hok hk

theorem eraseOne_spec (hapi : api.Standard) {n k x : ℕ} {s : Side} {red : Bool} {A : RbTree ℕ}
    (hlink : Rb.Linked t (plug p (join s red A x .nil))) (hok : HoleOk p n)
      (hsub : (join s red A x .nil).Ok n)
    (hmay : red = true → mayRed p = true) (hk : p.length < k) :
    Mended t (plug p A).toList (atColor api k (eraseOne t x A.root)) := by
  obtain ⟨-, -, -, hparent, hred⟩ := hlink.fields
  obtain ⟨hlink', hagree⟩ := hlink.splice
  unfold eraseOne
  rw [hparent, hred]
  exact (finish_spec hapi hlink' hok hsub hmay hk).of_agree hagree

theorem rbErase_spec (hapi : api.Standard) {k x : ℕ} (hlink : Rb.Linked t T) (hvalid : T.Valid)
    (hx : x ∈ T.toList) (hk : T.size < k) (hsafe : ¬ LeftWithTwo t x) :
    Mended t (T.toList.erase x) (rbErase api k t x) := by
  obtain ⟨p, red, l, r, rfl⟩ := RbTree.exists_plug hx
  obtain ⟨n, hok, hsub, hmay⟩ := RbTree.valid_plug_iff.mp hvalid
  have hfields := Rb.Linked.fields (s := .left) (A := l) (B := r) hlink
  obtain ⟨hx0, hleft, hright, hparent, hred⟩ := hfields
  have hlist : (plug p (.node red l x r)).toList.erase x = (RbTree.before p ++ l.toList) ++
      (r.toList ++ RbTree.behind p) := by
    have hnodup := hlink.nodup
    rw [RbTree.toList_plug_node] at hnodup ⊢
    rw [List.erase_append_right _ fun h => (List.nodup_append'.mp hnodup).2.2 h List.mem_cons_self,
      List.erase_cons_head]
  rw [hlist]
  rw [RbTree.size_plug] at hk
  have hlen := RbTree.length_le_around p
  obtain ⟨-, ⟨-, -, -, -, -, hhl, hhr⟩, -⟩ := linked_plug_iff.mp hlink
  change t.child .right x = r.root at hright
  unfold rbErase
  rw [live_of_ne hx0]
  by_cases hl : l = .nil
  · subst hl
    have hone := eraseOne_spec hapi (s := .right) (k := k) hlink hok hsub hmay (by omega)
    rw [RbTree.toList_plug] at hone
    simpa [hleft, hright, RbTree.toList] using hone
  have hl0 : l.root ≠ 0 := hhl.root_ne_zero hl
  by_cases hr : r = .nil
  · subst hr
    have hone := eraseOne_spec hapi (s := .left) (k := k) hlink hok hsub hmay (by omega)
    rw [RbTree.toList_plug] at hone
    simpa [hleft, hright, RbTree.toList, hl0] using hone
  have hr0 : r.root ≠ 0 := hhr.root_ne_zero hr
  obtain ⟨q, rs, y, u, rfl, hq⟩ := RbTree.exists_leftmost hr
  have hside : ∀ f ∈ p.head?, f.side = .right := by
    intro f hf
    cases p with
    | nil => exact absurd hf (by simp)
    | cons g p =>
      obtain rfl : g = f := by simpa using hf
      obtain ⟨⟨hg, hnear, -⟩, -⟩ := linked_plug_iff.mp hlink
      cases hgs : g.side with
      | right => rfl
      | left =>
        rw [hgs] at hnear
        refine absurd ⟨?_, ?_, ?_, ?_⟩ hsafe
        · rwa [hparent]
        · rwa [hparent]
        · rwa [hleft]
        · rwa [hright]
  have hk' : (plug q (.node rs .nil y u)).size ≤ k := by
    rw [RbTree.size] at hk
    omega
  obtain ⟨m, htwo, hlink', hagree⟩ := eraseTwo_spec hlink hl hq hside hk'
  have hplug : plug p (.node red l y (plug q u)) = plug (q ++ ⟨.right, red, y, l⟩ :: p) u := by
    rw [RbTree.plug_append]
    rfl
  have hrun : eraseTwo k t x = some ⟨m, u.root, parentOf 0 (q ++ ⟨.right, red, y, l⟩ :: p), rs⟩ := by
    rw [htwo, RbTree.parentOf_append]
  have hold : plug p (.node red l x (plug q (.node rs .nil y u))) =
      plug (q ++ ⟨.right, red, x, l⟩ :: p) (join .right rs u y .nil) := by
    rw [RbTree.plug_append]
    rfl
  rw [hold, RbTree.valid_plug_iff] at hvalid
  obtain ⟨n', hok', hsub', hmay'⟩ := hvalid
  have hmayRed : RbTree.mayRed (q ++ ⟨.right, red, y, l⟩ :: p) = RbTree.mayRed
      (q ++ ⟨.right, red, x, l⟩ :: p) := by
    cases q <;> rfl
  rw [hplug] at hlink' hagree
  have hlen' : (q ++ ⟨.right, red, y, l⟩ :: p).length < k := by
    have hq' := RbTree.length_le_around q
    rw [RbTree.size, RbTree.size_plug] at hk
    rw [List.length_append, List.length_cons]
    omega
  have hmended := finish_spec hapi (s := .right) hlink' ((RbTree.holeOk_addr y).mpr hok') hsub'
    (fun h => hmayRed ▸ hmay' (by rwa [RbTree.isRed_join])) hlen'
  have hlist' : (plug p (.node red l y (plug q u))).toList = (RbTree.before p ++ l.toList) ++
      ((plug q (.node rs .nil y u)).toList ++ RbTree.behind p) := by
    rw [RbTree.toList_plug_node, RbTree.toList_plug, RbTree.toList_plug, RbTree.before_eq_nil hq]
    simp [RbTree.toList]
  rw [← hplug, hlist'] at hmended
  rw [← hplug, hlist'] at hagree
  simpa [hleft, hright, hl0, hr0, hrun] using hmended.of_agree hagree

end GcAos.Sched
