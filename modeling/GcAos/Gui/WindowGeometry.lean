import GcAos.Gui.ManagerRun

/-! The geometry of a window that is maximized, minimized and restored. The saved one serves both, so
that minimizing a maximized window overwrites the normal one. -/

namespace GcAos.Gui.Manager
open Lib

structure Geometry where
  x : ℤ
  y : ℤ
  width : ℤ
  height : ℤ
  deriving DecidableEq

def Window.geometry (win : Window) : Geometry := ⟨win.x, win.y, win.width, win.height⟩

def Window.prevGeometry (win : Window) : Geometry :=
  ⟨win.prevX, win.prevY, win.prevWidth, win.prevHeight⟩

/-- A call of one of the three functions, or the next part of an old one. -/
inductive SizeStep
  | windowMaximize (win : Option ℕ)
  | windowMinimize (win : Option ℕ)
  | windowRestore (win : Option ℕ)
  | resume (i : ℕ)

def SizeStep.run (c : Callers) : SizeStep → Callers
  | windowMaximize win => { c with wm := c.wm.windowMaximize win }
  | windowMinimize win => c.step (.call (.windowMinimize win))
  | windowRestore win => c.step (.call (.windowRestore win))
  | resume i => c.step (.resume i)

variable {s : WindowManager} {c : Callers} {w v : ℕ} {g : Geometry} {steps : List SizeStep}

/-- A maximized window is not minimized, unless `g` is its geometry then too. -/
def SizeStep.Keeps (w : ℕ) (g : Geometry) (c : Callers) : SizeStep → Prop
  | windowMinimize (some v) => v = w → (c.wm.window w).state = .maximized →
      (c.wm.window w).flags &&& windowFlagMinimizable ≠ 0 → (c.wm.window w).geometry = g
  | _ => True

/-- `g` is the geometry that the window has, or gets back. -/
structure Returns (g : Geometry) (win : Window) : Prop where
  normal : win.state = .normal → win.geometry = g
  minimized : win.state = .minimized → win.geometry = g
  maximized : win.state = .maximized → win.prevGeometry = g
  shown : win.state ≠ .hidden ∧ win.state ≠ .destroyed

/-- What `Returns` is about is the same for both. -/
structure SameShape (win win' : Window) : Prop where
  state : win'.state = win.state
  flags : win'.flags = win.flags
  geometry : win'.geometry = win.geometry
  prevGeometry : win'.prevGeometry = win.prevGeometry

namespace SameShape

theorem refl (win : Window) : SameShape win win := ⟨rfl, rfl, rfl, rfl⟩

theorem modify (s : WindowManager) (v w : ℕ) {f : Window → Window} (hf : ∀ win, SameShape win (f win)) :
    SameShape (s.window w) ((s.modify v f).window w) := by
  by_cases heq : w = v
  · subst heq
    rw [WindowManager.modify_self]
    exact hf _
  · rw [WindowManager.modify_of_ne _ heq]
    exact refl _

theorem trans {win win' win'' : Window} (h : SameShape win win') (h' : SameShape win' win'') :
    SameShape win win'' :=
  ⟨h'.state.trans h.state, h'.flags.trans h.flags, h'.geometry.trans h.geometry,
    h'.prevGeometry.trans h.prevGeometry⟩

theorem returns {win win' : Window} (h : SameShape win win') (hwin : Returns g win) : Returns g win' := by
  refine ⟨fun hstate => ?_, fun hstate => ?_, fun hstate => ?_, ?_⟩
  · exact h.geometry.trans (hwin.normal (h.state.symm.trans hstate))
  · exact h.geometry.trans (hwin.minimized (h.state.symm.trans hstate))
  · exact h.prevGeometry.trans (hwin.maximized (h.state.symm.trans hstate))
  · rw [h.state]
    exact hwin.shown

theorem resume (s : WindowManager) (f : Frame) (w : ℕ) :
    SameShape (s.window w) ((s.resume f).1.window w) := by
  have hfocused (b : Bool) (win : Window) : SameShape win { win with focused := b } :=
    ⟨rfl, rfl, rfl, rfl⟩
  cases f with
  | focus v =>
    unfold WindowManager.resume WindowManager.windowFocus WindowManager.saveFocus
    dsimp only
    split
    · exact refl _
    · split
      · exact modify s v w (hfocused true)
      · split
        · exact modify s v w (hfocused true)
        · exact (modify s _ w (hfocused false)).trans (modify _ v w (hfocused true))
  | raise v =>
    obtain ⟨z, hz⟩ := (WmInv.updateZIndices_frame
      { s with zOrdered := v :: s.zOrdered.erase v }).2.2.2.2 w
    change SameShape _ (WindowManager.updateZIndices _ |>.window w)
    rw [hz]
    exact ⟨rfl, rfl, rfl, rfl⟩
  | unfocus v =>
    unfold WindowManager.resume WindowManager.windowUnfocus
    dsimp only
    split
    · split
      · exact refl _
      · exact modify s _ w (hfocused false)
    · exact refl _

end SameShape

namespace Returns

theorem windowMaximize (h : Returns g (s.window w)) (win : Option ℕ) :
    Returns g ((s.windowMaximize win).window w) := by
  cases win with
  | none => exact h
  | some v =>
    unfold WindowManager.windowMaximize
    dsimp only
    split
    · exact h
    · rename_i hskip
      by_cases heq : w = v
      · subst heq
        have hsaved : (s.window w).geometry = g := by
          cases hstate : (s.window w).state with
          | normal => exact h.normal hstate
          | minimized => exact h.minimized hstate
          | maximized => exact absurd (.inr (.inr hstate)) hskip
          | hidden => exact absurd hstate h.shown.1
          | destroyed => exact absurd hstate h.shown.2
        rw [WindowManager.modify_self]
        exact ⟨WindowState.noConfusion, WindowState.noConfusion, fun _ => hsaved,
          WindowState.noConfusion, WindowState.noConfusion⟩
      · rw [WindowManager.modify_of_ne _ heq]
        exact h

theorem windowMinimize (h : Returns g (s.window w)) {win : Option ℕ}
    (hkeeps : w ∈ win → (s.window w).state = .maximized →
      (s.window w).flags &&& windowFlagMinimizable ≠ 0 → (s.window w).geometry = g) :
    Returns g ((s.windowMinimize win).1.window w) := by
  cases win with
  | none => exact h
  | some v =>
    unfold WindowManager.windowMinimize
    dsimp only
    split
    · exact h
    · rename_i hskip
      dsimp only [WindowManager.unlink]
      by_cases heq : w = v
      · subst heq
        have hsaved : (s.window w).geometry = g := by
          cases hstate : (s.window w).state with
          | normal => exact h.normal hstate
          | minimized => exact h.minimized hstate
          | maximized => exact hkeeps rfl hstate fun hflag => hskip (.inr hflag)
          | hidden => exact absurd hstate h.shown.1
          | destroyed => exact absurd hstate h.shown.2
        rw [WindowManager.modify_self]
        exact ⟨WindowState.noConfusion, fun _ => hsaved, WindowState.noConfusion,
          WindowState.noConfusion, WindowState.noConfusion⟩
      · rw [WindowManager.modify_of_ne _ heq]
        exact h

theorem windowRestore (h : Returns g (s.window w)) (win : Option ℕ) :
    Returns g ((s.windowRestore win).1.window w) := by
  cases win with
  | none => exact h
  | some v =>
    unfold WindowManager.windowRestore
    dsimp only
    split
    · rename_i hstate
      dsimp only
      by_cases heq : w = v
      · subst heq
        rw [WindowManager.modify_self]
        exact ⟨fun _ => h.minimized hstate, WindowState.noConfusion, WindowState.noConfusion,
          WindowState.noConfusion, WindowState.noConfusion⟩
      · rw [WindowManager.modify_of_ne _ heq]
        exact h
    · rename_i hstate
      dsimp only
      by_cases heq : w = v
      · subst heq
        rw [WindowManager.modify_self]
        exact ⟨fun _ => h.maximized hstate, WindowState.noConfusion, WindowState.noConfusion,
          WindowState.noConfusion, WindowState.noConfusion⟩
      · rw [WindowManager.modify_of_ne _ heq]
        exact h
    · exact h

theorem run (h : Returns g (c.wm.window w)) {st : SizeStep} (hkeeps : st.Keeps w g c) :
    Returns g ((st.run c).wm.window w) := by
  cases st with
  | windowMaximize win => exact h.windowMaximize win
  | windowMinimize win =>
    refine h.windowMinimize fun hw => ?_
    obtain rfl := Option.mem_def.mp hw
    exact hkeeps rfl
  | windowRestore win => exact h.windowRestore win
  | resume i =>
    rw [SizeStep.run, Callers.step]
    split
    · exact (SameShape.resume c.wm _ w).returns h
    · exact h

theorem foldl (h : Returns g (c.wm.window w))
    (hsteps : Meets (fun c st => some (SizeStep.run c st)) (fun c st => st.Keeps w g c) c steps) :
    Returns g ((steps.foldl SizeStep.run c).wm.window w) := by
  induction steps generalizing c with
  | nil => exact h
  | cons st steps ih => exact ih (h.run hsteps.1) (hsteps.2 _ rfl)

end Returns

theorem windowMinimize_self (hstate : (s.window w).state = .maximized)
    (hflag : (s.window w).flags &&& windowFlagMinimizable ≠ 0) :
    ((s.windowMinimize (some w)).1.window w).state = .minimized ∧
      ((s.windowMinimize (some w)).1.window w).geometry = (s.window w).geometry := by
  have hskip : ¬((s.window w).state = .destroyed ∨
      (s.window w).flags &&& windowFlagMinimizable = 0) := by
    rw [hstate]
    exact fun h => h.elim WindowState.noConfusion hflag
  unfold WindowManager.windowMinimize
  dsimp only
  rw [if_neg hskip]
  dsimp only [WindowManager.unlink]
  rw [WindowManager.modify_self]
  exact ⟨rfl, rfl⟩

theorem windowRestore_self (hstate : (s.window w).state = .minimized) :
    ((s.windowRestore (some w)).1.window w).state = .normal ∧
      ((s.windowRestore (some w)).1.window w).geometry = (s.window w).geometry := by
  unfold WindowManager.windowRestore
  dsimp only
  rw [hstate]
  dsimp only
  rw [WindowManager.modify_self]
  exact ⟨rfl, rfl⟩

/-- In a run whose steps meet the condition the window is normal with its geometry only. After a step that
does not meet it, a restore makes the window normal with another one. -/
theorem restore_returns {c : Callers} {w : ℕ} {steps : List SizeStep}
    (hnormal : (c.wm.window w).state = .normal)
    (hsteps : Meets (fun c st => some (SizeStep.run c st))
      (fun d st => st.Keeps w (c.wm.window w).geometry d) c steps) :
    (((steps.foldl SizeStep.run c).wm.window w).state = .normal →
        ((steps.foldl SizeStep.run c).wm.window w).geometry = (c.wm.window w).geometry) ∧
      ∀ st : SizeStep, ¬st.Keeps w (c.wm.window w).geometry (steps.foldl SizeStep.run c) →
        let d := ((steps ++ [st, .windowRestore (some w)]).foldl SizeStep.run c).wm
        (d.window w).state = .normal ∧ (d.window w).geometry ≠ (c.wm.window w).geometry := by
  have hstart : Returns (c.wm.window w).geometry (c.wm.window w) := by
    refine ⟨fun _ => rfl, fun _ => rfl, fun hstate => ?_, ?_⟩
    · exact absurd (hnormal.symm.trans hstate) WindowState.noConfusion
    · rw [hnormal]
      exact ⟨WindowState.noConfusion, WindowState.noConfusion⟩
  refine ⟨(hstart.foldl hsteps).normal, fun st hst => ?_⟩
  rw [List.foldl_append]
  generalize steps.foldl SizeStep.run c = d at hst
  match st, hst with
  | .windowMinimize (some v), hst =>
    simp only [SizeStep.Keeps, Classical.not_imp] at hst
    obtain ⟨rfl, hstate, hflag, hlost⟩ := hst
    obtain ⟨hminimized, hsame⟩ := windowMinimize_self hstate hflag
    obtain ⟨hback, hkept⟩ := windowRestore_self hminimized
    exact ⟨hback, fun heq => hlost (hsame.symm.trans (hkept.symm.trans heq))⟩
  | .windowMinimize none, hst => exact absurd trivial hst
  | .windowMaximize win, hst => exact absurd trivial hst
  | .windowRestore win, hst => exact absurd trivial hst
  | .resume i, hst => exact absurd trivial hst

def newWindow : Callers :=
  Callers.step ⟨windowManagerInit 800 600, []⟩ (.call (.windowCreate (some 5) 10 20 300 200 24))

theorem restore_returns_twice :
    let d := [SizeStep.windowMaximize (some 5), .windowRestore (some 5), .windowMinimize (some 5),
      .windowMaximize (some 5), .windowRestore (some 5)].foldl SizeStep.run newWindow
    (d.wm.window 5).geometry = (newWindow.wm.window 5).geometry := by
  refine (restore_returns (by rfl) ?_).1 (by rfl)
  refine ⟨trivial, fun _ ht => ?_⟩
  obtain rfl := Option.some.inj ht
  refine ⟨trivial, fun _ ht => ?_⟩
  obtain rfl := Option.some.inj ht
  refine ⟨fun _ hstate => absurd hstate (by decide), fun _ ht => ?_⟩
  obtain rfl := Option.some.inj ht
  exact ⟨trivial, fun _ _ => ⟨trivial, fun _ _ => trivial⟩⟩

theorem restore_desktop_size : (newWindow.wm.window 5).state = .normal ∧
    (newWindow.wm.window 5).geometry = ⟨10, 20, 300, 200⟩ ∧
      let d := [SizeStep.windowMaximize (some 5), .windowMinimize (some 5),
        .windowRestore (some 5)].foldl SizeStep.run newWindow
      (d.wm.window 5).state = .normal ∧ (d.wm.window 5).geometry = ⟨0, 28, 800, 502⟩ := by
  decide

end GcAos.Gui.Manager
