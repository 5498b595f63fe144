import GcAos.Gui.ManagerRun
import GcAos.Lib.Loop

/-! When the calls that focus or raise a window return. -/

namespace GcAos.Gui.Manager
open Lib
open StateTransition (Reaches)

/-- The rest of a call, with nothing in between. -/
def frameStep : WindowManager × List Frame → Option (WindowManager × List Frame)
  | (_, []) => none
  | (s, f :: rest) => some ((s.resume f).1, (s.resume f).2 ++ rest)

inductive FocusCall
  | windowFocus (w : ℕ)
  | windowRaise (w : ℕ)
  | windowCreate (mem : Option ℕ) (x y width height : ℤ) (flags : BitVec 32)
  | windowShow (w : ℕ)
  | windowRestore (w : ℕ)

namespace FocusCall

def start (s : WindowManager) : FocusCall → WindowManager × List Frame
  | windowFocus w => (s, [.focus w])
  | windowRaise w => (s, [.raise w])
  | windowCreate mem x y width height flags => s.windowCreate mem x y width height flags
  | windowShow w => s.windowShow (some w)
  | windowRestore w => s.windowRestore (some w)

def target (s : WindowManager) : FocusCall → Option ℕ
  | windowFocus w => some w
  | windowRaise w => some w
  | windowCreate mem .. => if s.allocWindowId = none then none else mem
  | windowShow w => some w
  | windowRestore w => some w

/-- The address that `kmalloc` returns is not that of a live window. -/
def Allowed (s : WindowManager) : FocusCall → Prop
  | windowCreate mem .. => ∀ w ∈ mem, ¬s.Live w
  | _ => True

end FocusCall

variable {s t : WindowManager} {w : ℕ} {rest fs : List Frame}

def OtherModal (s : WindowManager) (w : ℕ) : Prop := s.modalWindow ≠ none ∧ s.modalWindow ≠ some w

/-- `window_focus` does nothing. -/
def Unfocusable (s : WindowManager) (w : ℕ) : Prop :=
  windowCanFocus (s.window w) = false ∨ OtherModal s w

/-- No live window but `focused_window` has its flag set. -/
def UniqueFocus (s : WindowManager) : Prop :=
  ∀ w, s.Live w → (s.window w).focused = true → s.focusedWindow = some w

def HasFocus (s : WindowManager) (w : ℕ) : Prop :=
  ¬Unfocusable s w → s.focusedWindow = some w ∧ (s.window w).focused = true

theorem windowFocus_of_unfocusable (h : Unfocusable s w) : s.windowFocus w = (s, []) := by
  rw [WindowManager.windowFocus, if_pos]
  exact .inr h

theorem windowFocus_of_not (h : ¬Unfocusable s w) : s.windowFocus w =
    ({ (s.saveFocus w).modify w (fun win => { win with focused := true }) with
      focusedWindow := some w }, [.raise w]) := by
  rw [WindowManager.windowFocus, if_neg]
  rintro (hstate | hskip)
  · exact h (.inl (by simp [windowCanFocus, hstate]))
  · exact h hskip

theorem saveFocus_frame (s : WindowManager) (w : ℕ) :
    (s.saveFocus w).modalWindow = s.modalWindow ∧ (s.saveFocus w).window w = s.window w := by
  unfold WindowManager.saveFocus
  split
  · exact ⟨rfl, rfl⟩
  · split
    · exact ⟨rfl, rfl⟩
    · rename_i hne
      exact ⟨rfl, Function.update_of_ne (Ne.symm hne) ..⟩

theorem windowRaise_frame (s : WindowManager) (v : ℕ) :
    (s.windowRaise v).1.windows = s.windows ∧ (s.windowRaise v).1.modalWindow = s.modalWindow ∧
      (s.windowRaise v).1.focusedWindow = s.focusedWindow ∧
        ∀ w, ∃ z, (s.windowRaise v).1.window w = { s.window w with zIndex := z } := by
  obtain ⟨heights, heq, -⟩ :=
    WmInv.updateZIndices_spec { s with zOrdered := v :: s.zOrdered.erase v }
  rw [WindowManager.windowRaise, heq]
  exact ⟨rfl, rfl, rfl, fun w => ⟨heights w, rfl⟩⟩

theorem unfocusable_raise (s : WindowManager) (v w : ℕ) :
    Unfocusable (s.windowRaise v).1 w ↔ Unfocusable s w := by
  obtain ⟨-, hmodal, -, hwindow⟩ := windowRaise_frame s v
  obtain ⟨z, hz⟩ := hwindow w
  rw [Unfocusable, hz, OtherModal, hmodal]
  rfl

theorem unfocusable_focus (h : ¬Unfocusable s w) : ¬Unfocusable (s.windowFocus w).1 w := by
  obtain ⟨hmodal, hwindow⟩ := saveFocus_frame s w
  rw [windowFocus_of_not h]
  have hcan : windowCanFocus (((s.saveFocus w).modify w fun win => { win with focused := true }).window w) =
      windowCanFocus (s.window w) := by
    rw [WindowManager.modify_self, hwindow]
    rfl
  rintro (hno | hother)
  · exact h (.inl (hcan.symm.trans hno))
  · refine h (.inr ?_)
    have hsame : OtherModal (s.saveFocus w) w := hother
    rwa [OtherModal, hmodal] at hsame

def Looping (w : ℕ) (p : WindowManager × List Frame) : Prop :=
  ¬Unfocusable p.1 w ∧ ∃ rest, p.2 = .focus w :: rest ∨ p.2 = .raise w :: rest

theorem Looping.step {p q : WindowManager × List Frame} (h : Looping w p)
    (hstep : frameStep p = some q) : Looping w q := by
  obtain ⟨s, fs⟩ := p
  obtain ⟨hcan, rest, rfl | rfl⟩ := h
  · obtain rfl := Option.some.inj hstep
    refine ⟨unfocusable_focus hcan, rest, .inr ?_⟩
    change (s.windowFocus w).2 ++ rest = _
    rw [windowFocus_of_not hcan]
    rfl
  · obtain rfl := Option.some.inj hstep
    exact ⟨fun hno => hcan ((unfocusable_raise s w w).mp hno), rest, .inl rfl⟩

theorem Looping.reaches {p q : WindowManager × List Frame} (h : Looping w p)
    (hreach : Reaches frameStep p q) : Looping w q := by
  induction hreach with
  | refl => exact h
  | tail _ hstep ih => exact ih.step hstep

theorem Looping.not_returns {p : WindowManager × List Frame} (h : Looping w p) :
    ¬Reaches frameStep p (t, []) := by
  intro hreach
  obtain ⟨-, rest, hnil | hnil⟩ := h.reaches hreach
  all_goals exact absurd hnil.symm (List.cons_ne_nil _ _)

theorem returns_nil_iff : Reaches frameStep (s, []) (t, []) ↔ t = s := by
  constructor
  · intro h
    exact congrArg Prod.fst (Loop.reaches_of_none rfl h)
  · rintro rfl
    exact .refl

theorem reaches_cons_iff {f : Frame} {q : WindowManager × List Frame} (hq : q.2 = []) :
    Reaches frameStep (s, f :: rest) q ↔ Reaches frameStep ((s.resume f).1, (s.resume f).2 ++ rest) q := by
  rw [Loop.reaches_iff_of_some (f := frameStep) rfl, or_iff_right]
  rintro rfl
  exact absurd hq (List.cons_ne_nil _ _)

theorem returns_focus_iff : Reaches frameStep (s, .focus w :: rest) (t, []) ↔
    Unfocusable s w ∧ Reaches frameStep (s, rest) (t, []) := by
  by_cases h : Unfocusable s w
  · rw [reaches_cons_iff rfl, WindowManager.resume, windowFocus_of_unfocusable h, and_iff_right h]
    rfl
  · refine iff_of_false (Looping.not_returns ⟨h, rest, .inl rfl⟩) fun hreach => h hreach.1

theorem returns_raise_iff : Reaches frameStep (s, .raise w :: rest) (t, []) ↔
    Unfocusable s w ∧ Reaches frameStep ((s.windowRaise w).1, rest) (t, []) := by
  have hraise : s.resume (.raise w) = ((s.windowRaise w).1, [.focus w]) := rfl
  rw [reaches_cons_iff rfl, hraise, List.singleton_append, returns_focus_iff, unfocusable_raise]

theorem uniqueFocus_congr (hwindows : t.windows = s.windows)
    (hfocused : t.focusedWindow = s.focusedWindow)
    (hflags : ∀ w, (t.window w).focused = (s.window w).focused) : UniqueFocus t ↔ UniqueFocus s := by
  unfold UniqueFocus WindowManager.Live
  simp only [hwindows, hfocused, hflags]

theorem uniqueFocus_raise (s : WindowManager) (w : ℕ) :
    UniqueFocus (s.windowRaise w).1 ↔ UniqueFocus s := by
  obtain ⟨hwindows, -, hfocused, hwindow⟩ := windowRaise_frame s w
  refine uniqueFocus_congr hwindows hfocused fun v => ?_
  obtain ⟨z, hz⟩ := hwindow v
  rw [hz]

theorem uniqueFocus_modify (s : WindowManager) (w : ℕ) {f : Window → Window}
    (hf : ∀ win, (f win).focused = win.focused) : UniqueFocus (s.modify w f) ↔ UniqueFocus s := by
  refine uniqueFocus_congr rfl rfl fun v => ?_
  by_cases heq : v = w
  · subst heq
    rw [WindowManager.modify_self, hf]
  · rw [WindowManager.modify_of_ne _ heq]

def FocusesOnce (s : WindowManager) (c : FocusCall) : Prop :=
  ∃ t, Reaches frameStep (c.start s) (t, []) ∧ UniqueFocus t ∧ ∀ w ∈ c.target s, HasFocus t w

namespace FocusCall

def Settles (s : WindowManager) : FocusCall → Prop
  | windowFocus w => Unfocusable s w
  | windowRaise w => Unfocusable s w
  | windowCreate mem .. => ∀ w ∈ mem, s.allocWindowId ≠ none → OtherModal s w
  | windowShow w => (s.window w).state = .destroyed ∨ (s.window w).state = .minimized ∨ OtherModal s w
  | windowRestore w => if (s.window w).state = .minimized then OtherModal s w else HasFocus s w

end FocusCall

theorem hasFocus_of_unfocusable (h : Unfocusable s w) : HasFocus s w := fun hcan => absurd h hcan

variable {c : FocusCall}

theorem forall_target (htarget : c.target s = some w) {p : ℕ → Prop} :
    (∀ v ∈ c.target s, p v) ↔ p w := by
  rw [htarget]
  simp

theorem focusesOnce_of_nil (hstart : c.start s = (t, [])) :
    FocusesOnce s c ↔ UniqueFocus t ∧ ∀ w ∈ c.target s, HasFocus t w := by
  rw [FocusesOnce, hstart]
  constructor
  · rintro ⟨u, hreach, hu⟩
    rwa [returns_nil_iff.mp hreach] at hu
  · exact fun h => ⟨t, .refl, h⟩

theorem focusesOnce_of_focus (hstart : c.start s = (t, [.focus w])) (htarget : c.target s = some w) :
    FocusesOnce s c ↔ UniqueFocus t ∧ Unfocusable t w := by
  rw [FocusesOnce, hstart, htarget]
  constructor
  · rintro ⟨u, hreach, hunique, -⟩
    obtain ⟨hno, hreach⟩ := returns_focus_iff.mp hreach
    rw [returns_nil_iff.mp hreach] at hunique
    exact ⟨hunique, hno⟩
  · rintro ⟨hunique, hno⟩
    refine ⟨t, returns_focus_iff.mpr ⟨hno, .refl⟩, hunique, fun v hv => ?_⟩
    obtain rfl := Option.some.inj hv
    exact hasFocus_of_unfocusable hno

theorem focusesOnce_of_raise (hrest : rest = [] ∨ rest = [.focus w])
    (hstart : c.start s = (t, .raise w :: rest)) (htarget : c.target s = some w) :
    FocusesOnce s c ↔ UniqueFocus t ∧ Unfocusable t w := by
  have hlast {u : WindowManager} (hno : Unfocusable t w) :
      Reaches frameStep ((t.windowRaise w).1, rest) (u, []) ↔ u = (t.windowRaise w).1 := by
    rcases hrest with rfl | rfl
    · exact returns_nil_iff
    · rw [returns_focus_iff, unfocusable_raise, and_iff_right hno, returns_nil_iff]
  rw [FocusesOnce, hstart, htarget]
  constructor
  · rintro ⟨u, hreach, hunique, -⟩
    obtain ⟨hno, hreach⟩ := returns_raise_iff.mp hreach
    rw [(hlast hno).mp hreach] at hunique
    exact ⟨(uniqueFocus_raise t w).mp hunique, hno⟩
  · rintro ⟨hunique, hno⟩
    refine ⟨(t.windowRaise w).1, returns_raise_iff.mpr ⟨hno, (hlast hno).mpr rfl⟩,
      (uniqueFocus_raise t w).mpr hunique, fun v hv => ?_⟩
    obtain rfl := Option.some.inj hv
    exact hasFocus_of_unfocusable ((unfocusable_raise t w w).mpr hno)

theorem windowCanFocus_destroyed (h : (s.window w).state = .destroyed) : Unfocusable s w :=
  .inl (by simp [windowCanFocus, h])

theorem focusesOnce_windowShow (s : WindowManager) (w : ℕ) :
    FocusesOnce s (.windowShow w) ↔ UniqueFocus s ∧ (FocusCall.windowShow w).Settles s := by
  by_cases hstate : (s.window w).state = .destroyed
  · have hstart : (FocusCall.windowShow w).start s = (s, []) := if_pos hstate
    rw [focusesOnce_of_nil hstart]
    refine and_congr_right fun _ => iff_of_true (fun v hv => ?_) (.inl hstate)
    obtain rfl := Option.some.inj hv
    exact hasFocus_of_unfocusable (windowCanFocus_destroyed hstate)
  · have hstart : (FocusCall.windowShow w).start s = (s.modify w fun win => { win with
        visible := true
        state := if win.state = .hidden then .normal else win.state }, [.raise w]) := if_neg hstate
    rw [focusesOnce_of_raise (.inl rfl) hstart rfl, FocusCall.Settles, or_iff_right hstate]
    refine and_congr (uniqueFocus_modify s w ?_) (or_congr_left ?_)
    · exact fun _ => rfl
    · rw [WindowManager.modify_self]
      cases hs : (s.window w).state with
      | destroyed => exact absurd hs hstate
      | _ => simp [windowCanFocus]

theorem focusesOnce_windowRestore (s : WindowManager) (w : ℕ) :
    FocusesOnce s (.windowRestore w) ↔ UniqueFocus s ∧ (FocusCall.windowRestore w).Settles s := by
  cases hstate : (s.window w).state with
  | minimized =>
    have hstart : (FocusCall.windowRestore w).start s = ({ s.modify w (fun win => { win with
        state := .normal
        visible := true }) with links := s.links.listAdd (.win w) .visible },
          [.raise w, .focus w]) := by
      rw [FocusCall.start, WindowManager.windowRestore]
      dsimp only
      rw [hstate]
      rfl
    rw [focusesOnce_of_raise (.inr rfl) hstart rfl, FocusCall.Settles, if_pos hstate]
    have hunique := uniqueFocus_modify s w
      (f := fun win => { win with state := .normal, visible := true }) fun _ => rfl
    refine and_congr hunique (or_iff_right ?_)
    · dsimp only
      rw [WindowManager.modify_self]
      exact Bool.noConfusion
  | maximized =>
    have hstart : (FocusCall.windowRestore w).start s = (s.modify w (fun win => { win with
        x := win.prevX
        y := win.prevY
        width := win.prevWidth
        height := win.prevHeight
        state := .normal }), []) := by
      rw [FocusCall.start, WindowManager.windowRestore]
      dsimp only
      rw [hstate]
    rw [focusesOnce_of_nil hstart, FocusCall.Settles, hstate]
    refine and_congr (uniqueFocus_modify s w ?_) ?_
    · exact fun _ => rfl
    · rw [if_neg WindowState.noConfusion, forall_target rfl, HasFocus, HasFocus, Unfocusable, Unfocusable,
        WindowManager.modify_self]
      simp only [windowCanFocus, hstate]
      rfl
  | _ =>
    have hstart : (FocusCall.windowRestore w).start s = (s, []) := by
      rw [FocusCall.start, WindowManager.windowRestore]
      dsimp only
      rw [hstate]
    rw [focusesOnce_of_nil hstart, FocusCall.Settles, hstate]
    exact and_congr_right fun _ => forall_target rfl

theorem addWindow_frame (s : WindowManager) (w : ℕ) (win : Window) :
    (s.addWindow w win).windows = Function.update s.windows win.id (some w) ∧
      (s.addWindow w win).modalWindow = s.modalWindow ∧
        (s.addWindow w win).focusedWindow = s.focusedWindow ∧
          ∀ v, ∃ z, (s.addWindow w win).window v =
            { (s.modify w fun _ => win).window v with zIndex := z } := by
  let u : WindowManager := { s.modify w (fun _ => win) with
    windows := Function.update s.windows win.id (some w)
    windowCount := s.windowCount + 1
    links := s.links.listAdd (.win w) .all
    zOrdered := w :: s.zOrdered }
  obtain ⟨heights, heq, -⟩ := WmInv.updateZIndices_spec u
  have hadd : s.addWindow w win = { u.updateZIndices with
    links := u.updateZIndices.links.listAdd (.win w) .visible } := rfl
  rw [hadd, heq]
  exact ⟨rfl, rfl, rfl, fun v => ⟨heights v, rfl⟩⟩

theorem uniqueFocus_addWindow {win : Window} (hid : win.id < maxWindows)
    (hfree : s.windows win.id = none) (hfresh : ¬s.Live w) (hfocused : win.focused = false) :
    UniqueFocus (s.addWindow w win) ↔ UniqueFocus s := by
  obtain ⟨hwindows, -, hsame, hwindow⟩ := addWindow_frame s w win
  have hflag : ∀ v ≠ w, ((s.addWindow w win).window v).focused = (s.window v).focused := by
    intro v hv
    obtain ⟨z, hz⟩ := hwindow v
    rw [hz, WindowManager.modify_of_ne _ hv]
  have hnew : ((s.addWindow w win).window w).focused = false := by
    obtain ⟨z, hz⟩ := hwindow w
    rw [hz, WindowManager.modify_self]
    exact hfocused
  have hlive := fun v => live_add (v := v) hid hfree hwindows
  unfold UniqueFocus
  rw [hsame]
  constructor
  · intro h v hv hfocus
    have hne : v ≠ w := fun heq => hfresh (heq ▸ hv)
    exact h v ((hlive v).mpr (.inr hv)) ((hflag v hne).trans hfocus)
  · intro h v hv hfocus
    rcases (hlive v).mp hv with rfl | hv
    · exact absurd (hnew.symm.trans hfocus) Bool.false_ne_true
    · have hne : v ≠ w := fun heq => hfresh (heq ▸ hv)
      exact h v hv ((hflag v hne).symm.trans hfocus)

theorem uniqueFocus_allocWindow (hfresh : ¬s.Live w) : UniqueFocus (s.allocWindow w) ↔ UniqueFocus s := by
  refine forall₂_congr fun v hlive => ?_
  have hv : v ≠ w := fun heq => hfresh (heq ▸ hlive)
  have hsame : (s.allocWindow w).window v = s.window v := WindowManager.modify_of_ne s hv fun _ => {}
  rw [hsame]
  rfl

theorem focusesOnce_windowCreate (s : WindowManager) (mem : Option ℕ) (x y width height : ℤ)
    (flags : BitVec 32) (hmem : ∀ w ∈ mem, ¬s.Live w) :
    FocusesOnce s (.windowCreate mem x y width height flags) ↔
      UniqueFocus s ∧ (FocusCall.windowCreate mem x y width height flags).Settles s := by
  cases mem with
  | none =>
    have htarget : (FocusCall.windowCreate none x y width height flags).target s = none := by
      rw [FocusCall.target]
      split <;> rfl
    rw [focusesOnce_of_nil rfl, htarget]
    exact and_congr_right fun _ => iff_of_true (by simp) (by simp [FocusCall.Settles])
  | some w =>
    have hfresh := hmem w rfl
    have hsettles : (FocusCall.windowCreate (some w) x y width height flags).Settles s ↔
        (s.allocWindowId ≠ none → OtherModal s w) := by
      simp [FocusCall.Settles]
    rw [hsettles]
    cases hid : s.allocWindowId with
    | none =>
      have hstart : (FocusCall.windowCreate (some w) x y width height flags).start s =
          (s.allocWindow w, []) := by
        have halloc : (s.allocWindow w).allocWindowId = none := hid
        rw [FocusCall.start, WindowManager.windowCreate]
        dsimp only
        rw [halloc]
      have htarget : (FocusCall.windowCreate (some w) x y width height flags).target s = none := if_pos hid
      rw [focusesOnce_of_nil hstart, htarget, uniqueFocus_allocWindow hfresh]
      exact and_congr_right fun _ => iff_of_true (by simp) (by simp)
    | some id =>
      obtain ⟨hlt, hfree⟩ := WmInv.allocWindowId_spec hid
      have hstart : ∃ win : Window, win.id = id ∧ win.focused = false ∧ windowCanFocus win = true ∧
          (FocusCall.windowCreate (some w) x y width height flags).start s =
            ({ s.allocWindow w with nextWindowId := (id + 1) % maxWindows }.addWindow w win,
              [.focus w]) := by
        have halloc : (s.allocWindow w).allocWindowId = some id := hid
        rw [FocusCall.start, WindowManager.windowCreate]
        dsimp only
        rw [halloc]
        dsimp only
        generalize clampPlace s.desktopWidth _ x = x'
        generalize clampPlace s.desktopHeight _ y = y'
        generalize clampSize minWindowWidth maxWindowWidth width = width'
        generalize clampSize minWindowHeight maxWindowHeight height = height'
        refine ⟨⟨id, x', y', width', height', 0, .normal, flags, false, true, 0, 0, 0, 0⟩, rfl, rfl, rfl, ?_⟩
        obtain ⟨-, -, -, hwindow⟩ := addWindow_frame
          { s.allocWindow w with nextWindowId := (id + 1) % maxWindows } w
          ⟨id, x', y', width', height', 0, .normal, flags, false, true, 0, 0, 0, 0⟩
        obtain ⟨z, hz⟩ := hwindow w
        rw [hz, WindowManager.modify_self]
        rfl
      obtain ⟨win, rfl, hfocused, hcan, hstart⟩ := hstart
      have htarget : (FocusCall.windowCreate (some w) x y width height flags).target s = some w :=
        if_neg (by rw [hid]; exact Option.some_ne_none _)
      obtain ⟨-, hmodal, -, hwindow⟩ := addWindow_frame
        { s.allocWindow w with nextWindowId := (win.id + 1) % maxWindows } w win
      obtain ⟨z, hz⟩ := hwindow w
      rw [focusesOnce_of_focus hstart htarget]
      refine and_congr ?_ ?_
      · refine Iff.trans (uniqueFocus_addWindow hlt ?_ ?_ hfocused) (uniqueFocus_allocWindow hfresh)
        · exact hfree
        · exact hfresh
      · rw [Unfocusable, hz, WindowManager.modify_self, OtherModal, hmodal]
        have hcan : ¬windowCanFocus { win with zIndex := z } = false := ne_false_of_eq_true hcan
        have hsome : (some win.id ≠ none → OtherModal s w) ↔ OtherModal s w :=
          forall_prop_of_true (Option.some_ne_none _)
        rw [or_iff_right hcan, hsome]
        rfl

/-- A call returns with the focus where the claim has it just when it does not come to focus a window, in
a state where the focus is unique. -/
theorem focusesOnce_iff (s : WindowManager) (c : FocusCall) (hc : c.Allowed s) :
    FocusesOnce s c ↔ UniqueFocus s ∧ c.Settles s := by
  cases c with
  | windowFocus w => exact focusesOnce_of_focus rfl rfl
  | windowRaise w => exact focusesOnce_of_raise (.inl rfl) rfl rfl
  | windowCreate mem x y width height flags =>
    exact focusesOnce_windowCreate s mem x y width height flags hc
  | windowShow w => exact focusesOnce_windowShow s w
  | windowRestore w => exact focusesOnce_windowRestore s w

def modalOnly : WindowManager :=
  { (Callers.step ⟨windowManagerInit 800 600, []⟩ (.call (.windowCreate (some 5) 0 0 200 100 0))).wm with
    modalWindow := some 5 }

theorem uniqueFocus_modalOnly : UniqueFocus modalOnly := by
  rintro w ⟨id, -, hw⟩ hfocus
  by_cases hid : id = 1
  · subst hid
    obtain rfl : 5 = w := Option.some.inj hw
    exact absurd hfocus (by decide)
  · have hnone : modalOnly.windows id = none := Function.update_of_ne hid ..
    exact absurd (hnone.symm.trans hw) (by simp)

theorem focusesOnce_iff_modalOnly : FocusesOnce modalOnly (.windowCreate (some 6) 10 40 300 200 0) := by
  have hlive : ∀ w ∈ some 6, ¬modalOnly.Live w := by
    rintro w hw ⟨id, -, hentry⟩
    obtain rfl : 6 = w := Option.some.inj hw
    by_cases hid : id = 1
    · subst hid
      exact absurd (Option.some.inj hentry) (by decide)
    · have hnone : modalOnly.windows id = none := Function.update_of_ne hid ..
      exact absurd (hnone.symm.trans hentry) (by simp)
  have hiff := focusesOnce_iff modalOnly (.windowCreate (some 6) 10 40 300 200 0) hlive
  refine hiff.mpr ⟨uniqueFocus_modalOnly, fun w hw _ => ?_⟩
  obtain rfl : 6 = w := Option.some.inj hw
  exact ⟨by decide, by decide⟩

/-- The first window that is created is focused and raised without end. -/
theorem windowCreate_loops :
    ¬FocusesOnce (windowManagerInit 800 600) (.windowCreate (some 5) 0 0 200 100 0) := by
  rw [focusesOnce_windowCreate _ _ _ _ _ _ _ fun w _ => CallersInv.not_live_init w]
  intro hsettles
  exact (hsettles.2 5 rfl (by decide)).1 rfl

end GcAos.Gui.Manager
