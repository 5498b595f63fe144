import GcAos.Gui.ManagerRun

/-! The order of the windows from front to back, and their heights. -/

namespace GcAos.Gui.Manager
open Lib

/-- A call of one of the five functions, or the next part of an old one. -/
inductive StackStep
  | windowCreate (mem : Option ℕ) (x y width height : ℤ) (flags : BitVec 32)
  | windowDestroy (win : Option ℕ)
  | windowRaise (win : Option ℕ)
  | windowLower (win : Option ℕ)
  | windowRaiseAbove (win above : Option ℕ)
  | resume (i : ℕ)

namespace StackStep

def run (c : Callers) : StackStep → Callers
  | windowCreate mem x y width height flags => c.step (.call (.windowCreate mem x y width height flags))
  | windowDestroy win => c.step (.call (.windowDestroy win))
  | windowRaise none => c
  | windowRaise (some w) => ⟨(c.wm.windowRaise w).1, c.frames ++ [(c.wm.windowRaise w).2]⟩
  | windowLower win => { c with wm := c.wm.windowLower win }
  | windowRaiseAbove win above => { c with wm := c.wm.windowRaiseAbove win above }
  | resume i => c.step (.resume i)

/-- The windows are live, and that of `window_raise_above` is not the one below it. -/
def Allowed (c : Callers) : StackStep → Prop
  | windowCreate mem .. => ∀ w ∈ mem, ¬c.wm.Live w
  | windowDestroy win => ∀ w ∈ win, c.wm.Live w
  | windowRaise win => ∀ w ∈ win, c.wm.Live w
  | windowLower win => ∀ w ∈ win, c.wm.Live w
  | windowRaiseAbove win above => (∀ w ∈ win, c.wm.Live w) ∧ (∀ a ∈ above, c.wm.Live a) ∧
      ∀ w ∈ win, ∀ a ∈ above, w ≠ a
  | resume i => ∀ f rest, c.frames[i]? = some (f :: rest) → c.wm.Live f.win

def subject (c : Callers) : StackStep → Option ℕ
  | windowCreate mem .. => mem
  | windowDestroy win => win
  | windowRaise win => win
  | windowLower win => win
  | windowRaiseAbove win _ => win
  | resume i => (c.frames[i]?.bind List.head?).map Frame.win

/-- The window is where the call should put it in `z`, and so for the raise that a focus goes on with. -/
def Placed (c : Callers) (z : List ℕ) : StackStep → Prop
  | windowRaise (some w) => z.head? = some w
  | windowLower (some w) => z.getLast? = some w
  | windowRaiseAbove (some w) (some a) => ∃ front back, z = front ++ w :: a :: back
  | resume i => ∀ w rest, c.frames[i]? = some (.raise w :: rest) → z.head? = some w
  | _ => True

def Keeps (c : Callers) : StackStep → Prop
  | windowDestroy (some w) => c.wm.zOrdered.head? = some w
  | windowRaiseAbove (some _) (some _) => False
  | _ => True

instance (c : Callers) : (st : StackStep) → Decidable (st.Allowed c)
  | windowCreate mem .. => inferInstanceAs (Decidable (∀ w ∈ mem, ¬c.wm.Live w))
  | windowDestroy win | windowRaise win | windowLower win =>
    inferInstanceAs (Decidable (∀ w ∈ win, c.wm.Live w))
  | windowRaiseAbove win above =>
    inferInstanceAs (Decidable ((∀ w ∈ win, c.wm.Live w) ∧ (∀ a ∈ above, c.wm.Live a) ∧
      ∀ w ∈ win, ∀ a ∈ above, w ≠ a))
  | resume i => decidable_of_iff (∀ f ∈ c.frames[i]?.bind List.head?, c.wm.Live f.win) (by
      rcases h : c.frames[i]? with _ | _ | ⟨f, rest⟩ <;> simp [Allowed, h])

instance (c : Callers) : (st : StackStep) → Decidable (st.Keeps c)
  | windowDestroy (some w) => inferInstanceAs (Decidable (c.wm.zOrdered.head? = some w))
  | windowRaiseAbove (some _) (some _) => isFalse id
  | windowCreate .. | windowDestroy none | windowRaise _ | windowLower _ | windowRaiseAbove none _
  | windowRaiseAbove (some _) none | resume _ => isTrue trivial

end StackStep

structure StackOk (s : WindowManager) : Prop where
  nodup : s.zOrdered.Nodup
  mem : ∀ w, w ∈ s.zOrdered ↔ s.Live w
  zIndex : ∀ w (i : ℕ), s.zOrdered.reverse[i]? = some w → (s.window w).zIndex = i

def others (o : Option ℕ) (z : List ℕ) : List ℕ := z.filter fun v => some v ≠ o

structure StepOk (c : Callers) (st : StackStep) : Prop where
  stack : StackOk (st.run c).wm
  order : others (st.subject c) (st.run c).wm.zOrdered = others (st.subject c) c.wm.zOrdered
  placed : st.Placed c (st.run c).wm.zOrdered

variable {s t : WindowManager} {c : Callers} {w v a : ℕ} {l : List ℕ} {made : Prop}

theorem addAfter_of_mem (h : a ∈ l) : ∃ front back, l = front ++ a :: back ∧
    addAfter w a l = front ++ a :: w :: back := by
  induction l with
  | nil => exact absurd h List.not_mem_nil
  | cons v l ih =>
    by_cases hv : v = a
    · subst hv
      exact ⟨[], l, rfl, if_pos rfl⟩
    · obtain ⟨front, back, rfl, hadd⟩ := ih ((List.mem_cons.mp h).resolve_left (Ne.symm hv))
      refine ⟨v :: front, back, rfl, ?_⟩
      rw [addAfter, if_neg hv, hadd]
      rfl

theorem others_cons (w : ℕ) (l : List ℕ) : others (some w) (w :: l) = others (some w) l := by
  rw [others, List.filter_cons_of_neg (by simp)]
  rfl

theorem others_cons_of_ne (h : v ≠ w) : others (some w) (v :: l) = v :: others (some w) l :=
  List.filter_cons_of_pos (by simpa using h)

theorem others_erase (w : ℕ) (l : List ℕ) : others (some w) (l.erase w) = others (some w) l := by
  induction l with
  | nil => rfl
  | cons v l ih =>
    by_cases hv : v = w
    · subst hv
      rw [List.erase_cons_head, others_cons]
    · rw [List.erase_cons_tail (by simpa using hv), others_cons_of_ne hv, others_cons_of_ne hv, ih]

theorem others_insert (w : ℕ) (front back : List ℕ) :
    others (some w) (front ++ w :: back) = others (some w) (front ++ back) := by
  rw [others, others, List.filter_append, List.filter_append]
  exact congrArg _ (others_cons w back)

theorem StackOk.updateZIndices {z : List ℕ} (hnodup : z.Nodup) (hmem : ∀ w, w ∈ z ↔ s.Live w) :
    StackOk { s with zOrdered := z }.updateZIndices := by
  obtain ⟨heights, heq, hheights⟩ := WmInv.updateZIndices_spec { s with zOrdered := z }
  rw [heq]
  exact ⟨hnodup, hmem, hheights hnodup⟩

theorem StackOk.congr (h : StackOk s) (hz : t.zOrdered = s.zOrdered) (hwindows : t.windows = s.windows)
    (hzIndex : ∀ w, s.Live w → (t.window w).zIndex = (s.window w).zIndex) : StackOk t := by
  refine ⟨hz ▸ h.nodup, fun w => ?_, fun w i hw => ?_⟩
  · rw [hz, h.mem w, WindowManager.Live, WindowManager.Live, hwindows]
  · rw [hz] at hw
    have hlive : s.Live w := (h.mem w).mp (List.mem_reverse.mp (List.mem_of_getElem? hw))
    rw [hzIndex w hlive]
    exact h.zIndex w i hw

theorem StackOk.move (h : StackOk s) {z : List ℕ} (hz : z.Perm s.zOrdered) :
    StackOk { s with zOrdered := z }.updateZIndices :=
  StackOk.updateZIndices (hz.nodup_iff.mpr h.nodup) fun w => hz.mem_iff.trans (h.mem w)

theorem perm_raise (h : w ∈ l) : (w :: l.erase w).Perm l := (List.perm_cons_erase h).symm

theorem perm_lower (h : w ∈ l) : (l.erase w ++ [w]).Perm l :=
  List.perm_append_comm.trans (perm_raise h)

theorem resume_zOrdered (s : WindowManager) (f : Frame) :
    (s.resume f).1.zOrdered = s.zOrdered ∧ (s.resume f).1.windows = s.windows ∧
        (∀ w, ((s.resume f).1.window w).zIndex = (s.window w).zIndex) ∧ (∀ w, f ≠ .raise w) ∨
      ∃ w, f = .raise w := by
  have hflag (u : WindowManager) (v : ℕ) (b : Bool) (w : ℕ) :
      ((u.modify v fun win => { win with focused := b }).window w).zIndex = (u.window w).zIndex := by
    by_cases heq : w = v
    · subst heq
      rw [WindowManager.modify_self]
    · rw [WindowManager.modify_of_ne _ heq]
  cases f with
  | focus v =>
    refine .inl ?_
    unfold WindowManager.resume WindowManager.windowFocus WindowManager.saveFocus
    dsimp only
    split
    · exact ⟨rfl, rfl, fun w => rfl, fun w => Frame.noConfusion⟩
    · split
      · exact ⟨rfl, rfl, hflag s v true, fun w => Frame.noConfusion⟩
      · split
        · exact ⟨rfl, rfl, hflag s v true, fun w => Frame.noConfusion⟩
        · exact ⟨rfl, rfl, fun w => (hflag _ v true w).trans (hflag s _ false w),
            fun w => Frame.noConfusion⟩
  | raise w => exact .inr ⟨w, rfl⟩
  | unfocus v =>
    refine .inl ?_
    unfold WindowManager.resume WindowManager.windowUnfocus
    dsimp only
    split
    · split
      · exact ⟨rfl, rfl, fun w => rfl, fun w => Frame.noConfusion⟩
      · exact ⟨rfl, rfl, hflag s _ false, fun w => Frame.noConfusion⟩
    · exact ⟨rfl, rfl, fun w => rfl, fun w => Frame.noConfusion⟩

theorem StackOk.addWindow (h : StackOk s) (hfresh : ¬s.Live w) {win : Window} (hid : win.id < maxWindows)
    (hfree : s.windows win.id = none) :
    StackOk (s.addWindow w win) ∧ (s.addWindow w win).zOrdered = w :: s.zOrdered := by
  let u : WindowManager := { s.modify w (fun _ => win) with
    windows := Function.update s.windows win.id (some w)
    windowCount := s.windowCount + 1
    links := s.links.listAdd (.win w) .all }
  have hlive : ∀ v, u.Live v ↔ v = w ∨ s.Live v := fun v => live_add hid hfree rfl
  have hnodup : (w :: s.zOrdered).Nodup :=
    List.nodup_cons.mpr ⟨fun hmem => hfresh ((h.mem w).mp hmem), h.nodup⟩
  have hok : StackOk { u with zOrdered := w :: s.zOrdered }.updateZIndices := by
    refine StackOk.updateZIndices hnodup fun v => ?_
    rw [List.mem_cons, hlive, h.mem]
  obtain ⟨heights, heq, -⟩ := WmInv.updateZIndices_spec { u with zOrdered := w :: s.zOrdered }
  have hz : { u with zOrdered := w :: s.zOrdered }.updateZIndices.zOrdered = w :: s.zOrdered := by
    rw [heq]
  exact ⟨hok.congr rfl rfl fun _ _ => rfl, hz⟩

theorem windowCreate_stack (h : StackOk s) {mem : Option ℕ} (hmem : ∀ w ∈ mem, ¬s.Live w)
    (x y width height : ℤ) (flags : BitVec 32) :
    StackOk (s.windowCreate mem x y width height flags).1 ∧
      others mem (s.windowCreate mem x y width height flags).1.zOrdered = others mem s.zOrdered := by
  cases mem with
  | none => exact ⟨h, rfl⟩
  | some w =>
    have hfresh := hmem w rfl
    have hnew : StackOk (s.allocWindow w) := by
      refine h.congr rfl rfl fun v hv => ?_
      have hne : v ≠ w := fun heq => hfresh (heq ▸ hv)
      exact congrArg Window.zIndex (WindowManager.modify_of_ne s hne fun _ => {})
    have halloc : (s.allocWindow w).allocWindowId = s.allocWindowId := rfl
    unfold WindowManager.windowCreate
    dsimp only
    rw [halloc]
    cases hid : s.allocWindowId with
    | none => exact ⟨hnew, rfl⟩
    | some id =>
      obtain ⟨hlt, hfree⟩ := WmInv.allocWindowId_spec hid
      have hnext : StackOk { s.allocWindow w with nextWindowId := (id + 1) % maxWindows } :=
        hnew.congr rfl rfl fun _ _ => rfl
      dsimp only
      generalize clampPlace s.desktopWidth _ x = x'
      generalize clampPlace s.desktopHeight _ y = y'
      let win : Window := {
        id := id
        x := x'
        y := y'
        width := clampSize minWindowWidth maxWindowWidth width
        height := clampSize minWindowHeight maxWindowHeight height
        flags := flags
        visible := true }
      have hid : win.id < maxWindows := hlt
      obtain ⟨hok, hz⟩ := hnext.addWindow hfresh hid hfree
      refine ⟨hok, ?_⟩
      rw [hz]
      exact others_cons w _

theorem windowDestroy_frame (s : WindowManager) (w : ℕ) :
    (s.windowDestroy (some w)).1.zOrdered = s.zOrdered.erase w ∧
      (s.windowDestroy (some w)).1.windows = Function.update s.windows (s.window w).id none ∧
        ∀ v, ((s.windowDestroy (some w)).1.window v).zIndex = (s.window v).zIndex := by
  have hstate : ∀ v, ((s.modify w fun win => { win with state := .destroyed }).window v).zIndex =
      (s.window v).zIndex := by
    intro v
    by_cases heq : v = w
    · subst heq
      rw [WindowManager.modify_self]
    · rw [WindowManager.modify_of_ne _ heq]
  unfold WindowManager.windowDestroy
  dsimp only
  split <;> exact ⟨rfl, rfl, hstate⟩

theorem windowDestroy_stack (htable : TableInv s) (h : StackOk s) (hlive : s.Live w) :
    StackOk (s.windowDestroy (some w)).1 ↔ s.zOrdered.head? = some w := by
  obtain ⟨hz, hwindows, hzIndex⟩ := windowDestroy_frame s w
  have hmem : ∀ v, v ∈ s.zOrdered.erase w ↔ (s.windowDestroy (some w)).1.Live v := by
    intro v
    rw [htable.live_remove hlive hwindows, h.nodup.mem_erase_iff, h.mem]
  have hin : w ∈ s.zOrdered := (h.mem w).mpr hlive
  cases horder : s.zOrdered with
  | nil => exact absurd (horder ▸ hin) List.not_mem_nil
  | cons f l =>
    rw [List.head?_cons, Option.some_inj]
    constructor
    · intro hok
      by_contra hne
      have hback : w ∈ l := (List.mem_cons.mp (horder ▸ hin)).resolve_left (Ne.symm hne)
      have hlen := List.length_erase_of_mem hback
      have hpos := List.length_pos_of_mem hback
      have hold : s.zOrdered.reverse[l.length]? = some f := by
        rw [horder, List.reverse_cons]
        simp
      have hnew : (s.windowDestroy (some w)).1.zOrdered.reverse[(l.erase w).length]? = some f := by
        rw [hz, horder, List.erase_cons_tail (by simpa using hne), List.reverse_cons]
        simp
      have hheight := (hok.zIndex f _ hnew).symm.trans ((hzIndex f).trans (h.zIndex f _ hold))
      omega
    · rintro rfl
      refine ⟨?_, ?_, fun v i hv => ?_⟩
      · rw [hz]
        exact h.nodup.erase f
      · rw [hz]
        exact hmem
      · rw [hz, horder, List.erase_cons_head] at hv
        rw [hzIndex]
        refine h.zIndex v i ?_
        rw [horder, List.reverse_cons, List.getElem?_append_left (List.getElem?_eq_some_iff.mp hv).1]
        exact hv

theorem WmInv.run (h : WmInv False c.wm) {st : StackStep} (hst : st.Allowed c) :
    WmInv False (st.run c).wm := by
  have hheights (z : List ℕ) : WmInv False { c.wm with zOrdered := z }.updateZIndices := by
    obtain ⟨hwindows, hcount, hlinks, -⟩ := updateZIndices_frame { c.wm with zOrdered := z }
    exact h.congr hwindows hcount (fun v _ => updateZIndices_id _ v) hlinks
  cases st with
  | windowCreate mem x y width height flags =>
    by_cases hid : c.wm.allocWindowId = none
    · cases mem with
      | none => exact h
      | some w =>
        have halloc : (c.wm.allocWindow w).allocWindowId = none := hid
        have hsame : (c.wm.windowCreate (some w) x y width height flags).1 = c.wm.allocWindow w := by
          rw [WindowManager.windowCreate]
          dsimp only
          rw [halloc]
        have hnew := h.allocWindow (hst w rfl)
        rw [← hsame] at hnew
        exact hnew
    · exact (h.windowCreate hst (fun _ => hid) x y width height flags).imp False.elim
  | windowDestroy win => exact h.windowDestroy hst
  | windowRaise win =>
    cases win with
    | none => exact h
    | some w => exact hheights _
  | windowLower win =>
    cases win with
    | none => exact h
    | some w => exact hheights _
  | windowRaiseAbove win above =>
    cases win with
    | none => exact h
    | some w =>
      cases above with
      | none => exact h
      | some a => exact hheights _
  | resume i =>
    rw [StackStep.run, Callers.step]
    split
    · exact h.resume _
    · exact h

theorem updateZIndices_zOrdered (s : WindowManager) : s.updateZIndices.zOrdered = s.zOrdered := by
  obtain ⟨heights, heq, -⟩ := WmInv.updateZIndices_spec s
  rw [heq]

theorem windowRaise_stack (h : StackOk s) (hlive : s.Live w) : StackOk (s.windowRaise w).1 ∧
    (s.windowRaise w).1.zOrdered = w :: s.zOrdered.erase w :=
  ⟨h.move (perm_raise ((h.mem w).mpr hlive)), updateZIndices_zOrdered _⟩

theorem not_placed_above (h : StackOk c.wm) (ha : c.wm.Live a) (hne : w ≠ a) :
    ¬StepOk c (.windowRaiseAbove (some w) (some a)) := by
  intro hok
  have hin : a ∈ c.wm.zOrdered.erase w := (List.mem_erase_of_ne hne.symm).mpr ((h.mem a).mpr ha)
  obtain ⟨front, back, -, hadd⟩ := addAfter_of_mem hin
  have hz : (c.wm.windowRaiseAbove (some w) (some a)).zOrdered = front ++ a :: w :: back :=
    (updateZIndices_zOrdered _).trans hadd
  obtain ⟨front', back', hplaced⟩ := hok.placed
  have hnodup : (front ++ a :: w :: back).Nodup := hz ▸ hok.stack.nodup
  have heq : front ++ a :: w :: back = front' ++ w :: a :: back' := hz.symm.trans hplaced
  have hplace {i j : ℕ} {v : ℕ} (hi : (front ++ a :: w :: back)[i]? = some v)
      (hj : (front' ++ w :: a :: back')[j]? = some v) : i = j := by
    rw [← heq] at hj
    exact (List.getElem?_inj (List.getElem?_eq_some_iff.mp hi).1 hnodup).mp (hi.trans hj.symm)
  have hfirst : front.length = front'.length + 1 := hplace (v := a) (by simp) (by simp)
  have hsecond : front.length + 1 = front'.length := hplace (v := w) (by simp) (by simp)
  omega

theorem stepOk_resume (h : StackOk c.wm) {i : ℕ} (hi : StackStep.Allowed c (.resume i)) :
    StepOk c (.resume i) := by
  rcases hframes : c.frames[i]? with _ | _ | ⟨f, rest⟩
  · have hsame : (StackStep.resume i).run c = c := by
      rw [StackStep.run, Callers.step, hframes]
    refine ⟨hsame.symm ▸ h, by rw [hsame], fun w rest hraise => ?_⟩
    exact absurd (hframes.symm.trans hraise) (by simp)
  · have hsame : (StackStep.resume i).run c = c := by
      rw [StackStep.run, Callers.step, hframes]
    refine ⟨hsame.symm ▸ h, by rw [hsame], fun w rest hraise => ?_⟩
    exact absurd (hframes.symm.trans hraise) (by simp)
  have hrun : ((StackStep.resume i).run c).wm = (c.wm.resume f).1 := by
    rw [StackStep.run, Callers.step, hframes]
  have hsubject : (StackStep.resume i).subject c = some f.win := by
    rw [StackStep.subject, hframes]
    rfl
  have hlive := hi f rest hframes
  rcases resume_zOrdered c.wm f with ⟨hz, hwindows, hzIndex, hother⟩ | ⟨w, rfl⟩
  · refine ⟨?_, ?_, fun w rest' hraise => ?_⟩
    · rw [hrun]
      exact h.congr hz hwindows fun w _ => hzIndex w
    · rw [hrun, hz]
    · obtain ⟨rfl, -⟩ := List.cons.inj (Option.some.inj (hframes.symm.trans hraise))
      exact absurd rfl (hother w)
  · obtain ⟨hok, hz⟩ := windowRaise_stack h hlive
    have hlist : ((StackStep.resume i).run c).wm.zOrdered = w :: c.wm.zOrdered.erase w := hrun ▸ hz
    refine ⟨hrun ▸ hok, ?_, fun v rest' hraise => ?_⟩
    · rw [hsubject, hlist]
      exact (others_cons w _).trans (others_erase w _)
    · obtain ⟨hframe, -⟩ := List.cons.inj (Option.some.inj (hframes.symm.trans hraise))
      obtain rfl := Frame.raise.inj hframe
      rw [hlist]
      rfl

theorem stepOk_iff (hinv : WmInv False c.wm) (h : StackOk c.wm) {st : StackStep} (hst : st.Allowed c) :
    StepOk c st ↔ st.Keeps c := by
  cases st with
  | windowCreate mem x y width height flags =>
    obtain ⟨hok, horder⟩ := windowCreate_stack h hst x y width height flags
    exact iff_of_true ⟨hok, horder, trivial⟩ trivial
  | windowDestroy win =>
    cases win with
    | none => exact iff_of_true ⟨h, rfl, trivial⟩ trivial
    | some w =>
      have hiff := windowDestroy_stack hinv.table h (hst w rfl)
      refine ⟨fun hok => hiff.mp hok.stack, fun hkeeps => ⟨hiff.mpr hkeeps, ?_, trivial⟩⟩
      refine (congrArg (others (some w)) (windowDestroy_frame c.wm w).1).trans (others_erase w _)
  | windowRaise win =>
    cases win with
    | none => exact iff_of_true ⟨h, rfl, trivial⟩ trivial
    | some w =>
      obtain ⟨hok, hz⟩ := windowRaise_stack h (hst w rfl)
      refine iff_of_true ⟨hok, ?_, ?_⟩ trivial
      · exact (congrArg (others (some w)) hz).trans ((others_cons w _).trans (others_erase w _))
      · exact congrArg List.head? hz
  | windowLower win =>
    cases win with
    | none => exact iff_of_true ⟨h, rfl, trivial⟩ trivial
    | some w =>
      have hz : (c.wm.windowLower (some w)).zOrdered = c.wm.zOrdered.erase w ++ [w] :=
        updateZIndices_zOrdered _
      refine iff_of_true ⟨h.move (perm_lower ((h.mem w).mpr (hst w rfl))), ?_, ?_⟩ trivial
      · refine (congrArg (others (some w)) hz).trans ((others_insert w _ []).trans ?_)
        rw [List.append_nil]
        exact others_erase w _
      · exact (congrArg List.getLast? hz).trans List.getLast?_concat
  | windowRaiseAbove win above =>
    cases win with
    | none => exact iff_of_true ⟨h, rfl, trivial⟩ trivial
    | some w =>
      cases above with
      | none => exact iff_of_true ⟨h, rfl, trivial⟩ trivial
      | some a =>
        refine iff_of_false (fun hok => ?_) fun hfalse => hfalse
        exact not_placed_above h (hst.2.1 a rfl) (hst.2.2 w rfl a rfl) hok
  | resume i => exact iff_of_true (stepOk_resume h hst) trivial

theorem stackOk_init (width height : ℤ) : StackOk (windowManagerInit width height) where
  nodup := List.nodup_nil
  mem w := iff_of_false List.not_mem_nil (CallersInv.not_live_init w)
  zIndex w i hw := absurd hw (by simp [windowManagerInit])

theorem meets_stepOk_iff {steps : List StackStep} (hinv : WmInv False c.wm) (h : StackOk c.wm)
    (hsteps : Meets (fun c st => some (StackStep.run c st)) (fun c st => st.Allowed c) c steps) :
    Meets (fun c st => some (StackStep.run c st)) StepOk c steps ↔
      Meets (fun c st => some (StackStep.run c st)) (fun c st => st.Keeps c) c steps := by
  induction steps generalizing c with
  | nil => exact Iff.rfl
  | cons st steps ih =>
    have hiff := stepOk_iff hinv h hsteps.1
    have hrest (hok : StepOk c st) := ih (hinv.run hsteps.1) hok.stack (hsteps.2 _ rfl)
    constructor
    · rintro ⟨hok, htail⟩
      refine ⟨hiff.mp hok, fun t ht => ?_⟩
      obtain rfl := Option.some.inj ht
      exact (hrest hok).mp (htail _ rfl)
    · rintro ⟨hkeeps, htail⟩
      have hok := hiff.mpr hkeeps
      refine ⟨hok, fun t ht => ?_⟩
      obtain rfl := Option.some.inj ht
      exact (hrest hok).mpr (htail _ rfl)

/-- The list is that of the `z_list` nodes, of which `none` is the head: what the functions do to the
nodes is what is done to the list here. -/
theorem zOrdered_circular {m : ListHeads (Option ℕ)} {null : Option ℕ}
    (hc : m.Circular none (s.zOrdered.map some)) :
    (w ∉ s.zOrdered → (m.listAdd (some w) none).Circular none ((w :: s.zOrdered).map some)) ∧
    (w ∈ s.zOrdered →
      (m.listDel null (some w)).Circular none ((s.zOrdered.erase w).map some) ∧
      ((m.listDel null (some w)).listAdd (some w) none).Circular none
        ((s.windowRaise w).1.zOrdered.map some) ∧
      ((m.listDel null (some w)).listAddTail (some w) none).Circular none
        ((s.windowLower (some w)).zOrdered.map some) ∧
      (a ∈ s.zOrdered → a ≠ w →
        ((m.listDel null (some w)).listAdd (some w) (some a)).Circular none
          ((s.windowRaiseAbove (some w) (some a)).zOrdered.map some))) := by
  have hnew {l : List ℕ} (hw : w ∉ l) : some w ∉ none :: l.map some := by simpa using hw
  refine ⟨fun hw => hc.listAdd (hnew hw), fun hw => ?_⟩
  have hnd : s.zOrdered.Nodup := (List.nodup_cons.mp hc.nodup).2.of_map some
  have hgone : w ∉ s.zOrdered.erase w := fun hin => (hnd.mem_erase_iff.mp hin).1 rfl
  have hdel : (m.listDel null (some w)).Circular none ((s.zOrdered.erase w).map some) := by
    obtain ⟨front, back, hsplit⟩ := List.append_of_mem hw
    rw [hsplit, List.map_append] at hc
    rw [hsplit, List.erase_append_right _ ?_, List.erase_cons_head, List.map_append]
    · exact hc.listDel
    · rw [hsplit] at hnd
      exact fun hin => (List.nodup_cons.mp (List.nodup_middle.mp hnd)).1 (List.mem_append_left _ hin)
  refine ⟨hdel, ?_, ?_, fun ha hne => ?_⟩
  · rw [WindowManager.windowRaise, updateZIndices_zOrdered]
    exact hdel.listAdd (hnew hgone)
  · rw [WindowManager.windowLower, updateZIndices_zOrdered, List.map_append]
    exact hdel.listAddTail (hnew hgone)
  · obtain ⟨front, back, hsplit, hadd⟩ := addAfter_of_mem (w := w) ((List.mem_erase_of_ne hne).mpr ha)
    rw [hsplit, List.map_append] at hdel
    rw [WindowManager.windowRaiseAbove, updateZIndices_zOrdered, hadd, List.map_append]
    refine hdel.listAdd_entry ?_
    rw [← List.map_cons, ← List.map_append, ← hsplit]
    exact hnew hgone

/-- From the start, every step of a run does what is claimed and leads to a state that is as claimed just
when every step keeps the condition. -/
theorem stack_ok_iff (width height : ℤ) {steps : List StackStep}
    (hsteps : Meets (fun c st => some (StackStep.run c st)) (fun c st => st.Allowed c)
      ⟨windowManagerInit width height, []⟩ steps) :
    Meets (fun c st => some (StackStep.run c st)) StepOk ⟨windowManagerInit width height, []⟩ steps ↔
      Meets (fun c st => some (StackStep.run c st)) (fun c st => st.Keeps c)
        ⟨windowManagerInit width height, []⟩ steps := by
  refine meets_stepOk_iff (c := ⟨windowManagerInit width height, []⟩) ?_ (stackOk_init width height) hsteps
  exact .start width height

/-- Three windows are made, the last one is raised and its call goes on to focus it, the one behind
it is lowered, and the front one is destroyed. -/
def restacked : List StackStep :=
  [.windowCreate (some 5) 0 0 200 100 0, .windowCreate (some 6) 0 0 200 100 0,
    .windowCreate (some 7) 0 0 200 100 0, .windowRaise (some 5), .resume 3, .windowLower (some 7),
    .windowDestroy (some 5)]

theorem stack_ok_iff_restacked :
    Meets (fun c st => some (StackStep.run c st)) StepOk ⟨windowManagerInit 800 600, []⟩ restacked ∧
      ((restacked.take 6).foldl StackStep.run ⟨windowManagerInit 800 600, []⟩).wm.zOrdered = [5, 6, 7] :=
  ⟨(stack_ok_iff 800 600 (by decide +kernel)).mpr (by decide +kernel), by decide +kernel⟩

def threeWindows : Callers :=
  [StackStep.windowCreate (some 5) 0 0 200 100 0, .windowCreate (some 6) 0 0 200 100 0,
    .windowCreate (some 7) 0 0 200 100 0].foldl StackStep.run ⟨windowManagerInit 800 600, []⟩

/-- The window 5 is put behind 7 that it should be in front of. Without the window 6 the height of 7 is
still 2. -/
theorem window_stack_slips : threeWindows.wm.zOrdered = [7, 6, 5] ∧
    ((StackStep.windowRaiseAbove (some 5) (some 7)).run threeWindows).wm.zOrdered = [7, 5, 6] ∧
      ((StackStep.windowDestroy (some 6)).run threeWindows).wm.zOrdered = [7, 5] ∧
        (((StackStep.windowDestroy (some 6)).run threeWindows).wm.window 7).zIndex = 2 := by
  decide

end GcAos.Gui.Manager
