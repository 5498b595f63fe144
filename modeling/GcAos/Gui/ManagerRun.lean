import GcAos.Gui.WindowManager
import Mathlib.Data.Finset.Card

/-! What becomes of the lists of the window manager. -/

namespace GcAos.Gui.Manager
open Lib

/-- `window_count` is the number of entries of the table. -/
def CountOk (s : WindowManager) : Prop :=
  s.windowCount = ((Finset.range maxWindows).filter fun id => s.windows id ≠ none).card

structure ListsOk (s : WindowManager) : Prop where
  all : ∃ l : List ℕ, s.links.Circular .all (l.map .win) ∧ ∀ w, w ∈ l ↔ s.Live w
  visible : ∃ l : List ℕ, s.links.Circular .visible (l.map .win) ∧
    ∀ w, w ∈ l ↔ s.Live w ∧ (s.window w).visible = true

variable {s t : WindowManager} {c : Callers} {made : Prop} {m : ListHeads Node} {w : ℕ}

/-- No other node leads to the head of `all_windows`, and after a window was made it does not lead to
itself. -/
structure Stray (made : Prop) (m : ListHeads Node) : Prop where
  only : ∀ x ≠ .all, m.next x ≠ .all
  lost : made → m.next .all ≠ .all

namespace Stray

theorem noLinks : Stray False noLinks where
  only x hx := by
    have hnext : Manager.noLinks.next x = if x = .visible then .visible
        else if x = .all then .all else .null := by
      rw [Manager.noLinks, ListHeads.initListHead_next, ListHeads.initListHead_next]
    rw [hnext, if_neg hx]
    split <;> exact Node.noConfusion
  lost := False.elim

theorem initListHead (h : Stray made m) (w : ℕ) : Stray made (m.initListHead (.win w)) where
  only x hx := by
    rw [ListHeads.initListHead_next]
    split
    · exact Node.noConfusion
    · exact h.only x hx
  lost hmade := by
    rw [ListHeads.initListHead_next, if_neg Node.noConfusion]
    exact h.lost hmade

theorem listDel (h : Stray made m) (w : ℕ) : Stray made (m.listDel .null (.win w)) where
  only x hx := by
    rw [ListHeads.listDel_null_next]
    split
    · exact Node.noConfusion
    · split
      · exact h.only _ Node.noConfusion
      · exact h.only x hx
  lost hmade := by
    rw [ListHeads.listDel_null_next, if_neg Node.noConfusion]
    split
    · exact h.only _ Node.noConfusion
    · exact h.lost hmade

theorem listAdd_visible (h : Stray made m) (w : ℕ) : Stray made (m.listAdd (.win w) .visible) where
  only x hx := by
    rw [ListHeads.listAdd_next]
    split
    · exact Node.noConfusion
    · split
      · exact h.only _ Node.noConfusion
      · exact h.only x hx
  lost hmade := by
    rw [ListHeads.listAdd_next, if_neg Node.noConfusion, if_neg Node.noConfusion]
    exact h.lost hmade

theorem listAdd_both (h : Stray made m) (w : ℕ) :
    Stray True ((m.listAdd (.win w) .all).listAdd (.win w) .visible) where
  only x hx := by
    rw [ListHeads.listAdd_next]
    split
    · exact Node.noConfusion
    · split
      · rw [ListHeads.listAdd_next, if_neg Node.noConfusion, if_neg Node.noConfusion]
        exact h.only _ Node.noConfusion
      · rename_i hw
        rw [ListHeads.listAdd_next, if_neg hx, if_neg hw]
        exact h.only x hx
  lost _ := by
    rw [ListHeads.listAdd_next, if_neg Node.noConfusion, if_neg Node.noConfusion,
      ListHeads.listAdd_next,
      if_pos rfl]
    exact Node.noConfusion

theorem not_circular (h : Stray True m) (l : List Node) : ¬m.Circular .all l := by
  intro hcircular
  have hlast := hcircular.next.next_getLast
  by_cases heq : (Node.all :: l).getLast (List.cons_ne_nil _ l) = .all
  · rw [heq] at hlast
    exact h.lost trivial hlast
  · exact h.only _ heq hlast

end Stray

structure TableInv (s : WindowManager) : Prop where
  ids : ∀ id < maxWindows, ∀ w, s.windows id = some w → (s.window w).id = id
  count : CountOk s

theorem live_add {id v : ℕ} (hid : id < maxWindows) (hfree : s.windows id = none)
    (hwindows : t.windows = Function.update s.windows id (some w)) : t.Live v ↔ v = w ∨ s.Live v := by
  constructor
  · rintro ⟨id', hid', hv⟩
    rw [hwindows] at hv
    by_cases heq : id' = id
    · subst heq
      rw [Function.update_self] at hv
      exact .inl (Option.some.inj hv).symm
    · rw [Function.update_of_ne heq] at hv
      exact .inr ⟨id', hid', hv⟩
  · rintro (rfl | ⟨id', hid', hv⟩)
    · exact ⟨id, hid, by rw [hwindows, Function.update_self]⟩
    · have hne : id' ≠ id := by
        rintro rfl
        exact Option.some_ne_none v (hv.symm.trans hfree)
      exact ⟨id', hid', by rw [hwindows, Function.update_of_ne hne, hv]⟩

namespace TableInv

theorem live_remove (h : TableInv s) (hlive : s.Live w) {v : ℕ}
    (hwindows : t.windows = Function.update s.windows (s.window w).id none) :
    t.Live v ↔ v ≠ w ∧ s.Live v := by
  obtain ⟨id, hid, hw⟩ := hlive
  rw [h.ids id hid w hw] at hwindows
  constructor
  · rintro ⟨id', hid', hv⟩
    rw [hwindows] at hv
    by_cases heq : id' = id
    · subst heq
      rw [Function.update_self] at hv
      exact absurd hv.symm (Option.some_ne_none v)
    · rw [Function.update_of_ne heq] at hv
      refine ⟨?_, id', hid', hv⟩
      rintro rfl
      exact heq ((h.ids id' hid' v hv).symm.trans (h.ids id hid v hw))
  · rintro ⟨hne, id', hid', hv⟩
    have heq : id' ≠ id := by
      rintro rfl
      exact hne (Option.some.inj (hv.symm.trans hw))
    exact ⟨id', hid', by rw [hwindows, Function.update_of_ne heq, hv]⟩

theorem congr (h : TableInv s) (hwindows : t.windows = s.windows)
    (hcount : t.windowCount = s.windowCount)
    (hids : ∀ w, s.Live w → (t.window w).id = (s.window w).id) : TableInv t where
  ids id hid w hw := by
    rw [hwindows] at hw
    rw [hids w ⟨id, hid, hw⟩]
    exact h.ids id hid w hw
  count := by
    rw [CountOk, hwindows, hcount]
    exact h.count

theorem add (h : TableInv s) {id : ℕ} (hid : id < maxWindows) (hfree : s.windows id = none)
    (hlive : ¬s.Live w)
    (hwindows : t.windows = Function.update s.windows id (some w))
      (hcount : t.windowCount = s.windowCount + 1)
    (hself : (t.window w).id = id) (hids : ∀ v ≠ w, (t.window v).id = (s.window v).id) :
      TableInv t where
  ids id' hid' v hv := by
    rw [hwindows] at hv
    by_cases heq : id' = id
    · subst heq
      rw [Function.update_self] at hv
      rwa [← Option.some.inj hv]
    · rw [Function.update_of_ne heq] at hv
      have hne : v ≠ w := by
        rintro rfl
        exact hlive ⟨id', hid', hv⟩
      rw [hids v hne]
      exact h.ids id' hid' v hv
  count := by
    have hfilter : ((Finset.range maxWindows).filter fun i => t.windows i ≠ none) =
        insert id ((Finset.range maxWindows).filter fun i => s.windows i ≠ none) := by
      ext i
      rw [hwindows, Finset.mem_filter, Finset.mem_insert, Finset.mem_filter, Finset.mem_range]
      by_cases heq : i = id
      · subst heq
        rw [Function.update_self]
        exact iff_of_true ⟨hid, Option.some_ne_none w⟩ (.inl rfl)
      · rw [Function.update_of_ne heq, or_iff_right heq]
    have hnew : id ∉ (Finset.range maxWindows).filter fun i => s.windows i ≠ none := fun hmem =>
      (Finset.mem_filter.mp hmem).2 hfree
    rw [CountOk, hfilter, Finset.card_insert_of_notMem hnew, hcount, h.count]
    push_cast
    rfl

theorem remove (h : TableInv s) (hlive : s.Live w)
    (hwindows : t.windows = Function.update s.windows (s.window w).id none)
    (hcount : t.windowCount = s.windowCount - 1) (hids : ∀ v, (t.window v).id = (s.window v).id) :
    TableInv t := by
  obtain ⟨id, hid, hw⟩ := hlive
  rw [h.ids id hid w hw] at hwindows
  refine ⟨fun id' hid' v hv => ?_, ?_⟩
  · rw [hwindows] at hv
    by_cases heq : id' = id
    · subst heq
      rw [Function.update_self] at hv
      exact absurd hv.symm (Option.some_ne_none v)
    · rw [Function.update_of_ne heq] at hv
      rw [hids v]
      exact h.ids id' hid' v hv
  · have hold : id ∈ (Finset.range maxWindows).filter fun i => s.windows i ≠ none := by
      refine Finset.mem_filter.mpr ⟨Finset.mem_range.mpr hid, ?_⟩
      rw [hw]
      exact Option.some_ne_none w
    have hfilter : ((Finset.range maxWindows).filter fun i => t.windows i ≠ none) =
        ((Finset.range maxWindows).filter fun i => s.windows i ≠ none).erase id := by
      ext i
      rw [hwindows, Finset.mem_erase, Finset.mem_filter, Finset.mem_filter]
      by_cases heq : i = id
      · subst heq
        rw [Function.update_self]
        exact iff_of_false (fun hmem => hmem.2 rfl) fun hmem => hmem.1 rfl
      · rw [Function.update_of_ne heq]
        exact (and_iff_right heq).symm
    have hpos := Finset.card_pos.mpr ⟨id, hold⟩
    rw [CountOk, hfilter, Finset.card_erase_of_mem hold, hcount, h.count, Nat.cast_sub hpos]
    rfl

end TableInv

structure WmInv (made : Prop) (s : WindowManager) : Prop where
  table : TableInv s
  stray : Stray made s.links

namespace WmInv

theorem start (width height : ℤ) : WmInv False (windowManagerInit width height) where
  table := ⟨fun _ _ w hw => absurd hw.symm (Option.some_ne_none w), by
    rw [CountOk, Finset.filter_false_of_mem fun id _ hid => hid rfl]
    rfl⟩
  stray := Stray.noLinks

theorem congr (h : WmInv made s) (hwindows : t.windows = s.windows)
    (hcount : t.windowCount = s.windowCount)
    (hids : ∀ w, s.Live w → (t.window w).id = (s.window w).id) (hlinks : t.links = s.links) :
      WmInv made t :=
  ⟨h.table.congr hwindows hcount hids, by rw [hlinks]; exact h.stray⟩

theorem id_update {g : ℕ → Window} {win : Window} (hid : win.id = (g w).id) (v : ℕ) :
    (Function.update g w win v).id = (g v).id := by
  by_cases heq : v = w
  · subst heq
    rwa [Function.update_self]
  · rw [Function.update_of_ne heq]

theorem modify (h : WmInv made s) {f : Window → Window} (hf : (f (s.window w)).id = (s.window w).id) :
    WmInv made (s.modify w f) :=
  h.congr rfl rfl (fun v _ => id_update hf v) rfl

theorem updateZIndices_spec (s : WindowManager) : ∃ heights : ℕ → ℤ,
    s.updateZIndices = { s with
      window := fun v => { s.window v with zIndex := heights v }
      maxZIndex := (s.zOrdered.length : ℤ) - 1 } ∧
    (s.zOrdered.Nodup → ∀ v (i : ℕ), s.zOrdered.reverse[i]? = some v → heights v = i) := by
  have hloop : ∀ (l : List (ℕ × ℕ)) (u : WindowManager), ∃ heights : ℕ → ℤ,
      l.foldl (fun s p => s.modify p.1 fun win => { win with zIndex := p.2 }) u =
          { u with window := fun v => { u.window v with zIndex := heights v } } ∧
        (∀ v ∉ l.map Prod.fst, heights v = (u.window v).zIndex) ∧
          ((l.map Prod.fst).Nodup → ∀ p ∈ l, heights p.1 = p.2) := by
    intro l
    induction l with
    | nil =>
      exact fun u => ⟨fun v => (u.window v).zIndex, rfl, fun v _ => rfl, fun _ p hp =>
        absurd hp List.not_mem_nil⟩
    | cons p l ih =>
      intro u
      obtain ⟨heights, heq, hother, hmem⟩ := ih (u.modify p.1 fun win => { win with zIndex := p.2 })
      refine ⟨heights, ?_, fun v hv => ?_, fun hnodup q hq => ?_⟩
      · rw [List.foldl_cons, heq]
        refine congrArg (fun window => ({ u with window := window } : WindowManager)) (funext fun v => ?_)
        by_cases hv : v = p.1
        · subst hv
          rw [WindowManager.modify_self]
        · rw [WindowManager.modify_of_ne _ hv]
      · rw [List.map_cons, List.mem_cons, not_or] at hv
        rw [hother v hv.2, WindowManager.modify_of_ne _ hv.1]
      · rw [List.map_cons, List.nodup_cons] at hnodup
        rcases List.mem_cons.mp hq with rfl | hq
        · rw [hother _ hnodup.1, WindowManager.modify_self]
        · exact hmem hnodup.2 q hq
  obtain ⟨heights, heq, -, hmem⟩ := hloop s.zOrdered.reverse.zipIdx s
  refine ⟨heights, ?_, fun hnodup v i hv => ?_⟩
  · rw [WindowManager.updateZIndices, heq]
  · refine hmem ?_ (v, i) (List.mem_zipIdx_iff_getElem?.mpr hv)
    rw [List.zipIdx_map_fst]
    exact List.nodup_reverse.mpr hnodup

theorem updateZIndices_frame (s : WindowManager) : s.updateZIndices.windows = s.windows ∧
    s.updateZIndices.windowCount = s.windowCount ∧ s.updateZIndices.links = s.links ∧
    s.updateZIndices.modalWindow = s.modalWindow ∧
    ∀ v, ∃ z, s.updateZIndices.window v = { s.window v with zIndex := z } := by
  obtain ⟨heights, heq, -⟩ := updateZIndices_spec s
  rw [heq]
  exact ⟨rfl, rfl, rfl, rfl, fun v => ⟨heights v, rfl⟩⟩

theorem updateZIndices_id (s : WindowManager) (v : ℕ) :
    (s.updateZIndices.window v).id = (s.window v).id := by
  obtain ⟨z, hz⟩ := (updateZIndices_frame s).2.2.2.2 v
  rw [hz]

theorem imp (h : WmInv made s) {made' : Prop} (himp : made' → made) : WmInv made' s :=
  ⟨h.table, h.stray.only, fun hmade => h.stray.lost (himp hmade)⟩

theorem allocWindowId_spec {id : ℕ} (h : s.allocWindowId = some id) :
    id < maxWindows ∧ s.windows id = none := by
  obtain ⟨i, -, hi⟩ := List.mem_map.mp (List.mem_of_find?_eq_some h)
  have hfree := List.find?_some h
  rw [decide_eq_true_eq] at hfree
  exact ⟨hi ▸ Nat.mod_lt _ (by decide), hfree.2⟩

theorem allocWindow (h : WmInv made s) (hfresh : ¬s.Live w) : WmInv made (s.allocWindow w) := by
  refine ⟨h.table.congr rfl rfl fun v hv => ?_, h.stray.initListHead w⟩
  have hne : v ≠ w := by
    rintro rfl
    exact hfresh hv
  exact congrArg Window.id (Function.update_of_ne hne ..)

theorem addWindow (h : WmInv made s) (hfresh : ¬s.Live w) {win : Window} (hid : win.id < maxWindows)
    (hfree : s.windows win.id = none) : WmInv True (s.addWindow w win) := by
  obtain ⟨hwindows, hcount, hlinks, -⟩ := updateZIndices_frame { s.modify w (fun _ => win) with
    windows := Function.update s.windows win.id (some w)
    windowCount := s.windowCount + 1
    links := s.links.listAdd (.win w) .all
    zOrdered := w :: s.zOrdered }
  refine ⟨h.table.add hid hfree hfresh hwindows hcount ?_ fun v hv => ?_, ?_⟩
  · refine (updateZIndices_id _ w).trans ?_
    exact congrArg Window.id (Function.update_self ..)
  · refine (updateZIndices_id _ v).trans ?_
    exact congrArg Window.id (Function.update_of_ne hv ..)
  · have hboth := h.stray.listAdd_both w
    have hlinks : (s.addWindow w win).links = (s.links.listAdd (.win w) .all).listAdd
        (.win w) .visible :=
      congrArg (fun m => m.listAdd (.win w) .visible) hlinks
    rwa [← hlinks] at hboth

theorem windowCreate (h : WmInv made s) {mem : Option ℕ} (hmem : ∀ w ∈ mem, ¬s.Live w)
    (hroom : ¬made → s.allocWindowId ≠ none) (x y width height : ℤ) (flags : BitVec 32) :
    WmInv (made ∨ mem ≠ none) (s.windowCreate mem x y width height flags).1 := by
  cases mem with
  | none =>
    rw [or_iff_left fun hnone => hnone rfl]
    exact h
  | some w =>
    rw [or_iff_right_of_imp fun _ => Option.some_ne_none w]
    have hfresh := hmem w rfl
    have hnew := h.allocWindow hfresh
    have halloc : (s.allocWindow w).allocWindowId = s.allocWindowId := rfl
    unfold WindowManager.windowCreate
    dsimp only
    rw [halloc]
    cases hid : s.allocWindowId with
    | none => exact hnew.imp fun _ => by_contra fun hnot => hroom hnot hid
    | some id =>
      obtain ⟨hlt, hfree⟩ := allocWindowId_spec hid
      have hnext : WmInv made { s.allocWindow w with nextWindowId := (id + 1) % maxWindows } :=
        hnew.congr rfl rfl (fun _ _ => rfl) rfl
      refine (hnext.addWindow hfresh ?_ ?_).imp fun _ => trivial
      · exact hlt
      · exact hfree

theorem windowDestroy (h : WmInv made s) {win : Option ℕ} (hwin : ∀ w ∈ win, s.Live w) :
    WmInv made (s.windowDestroy win).1 := by
  cases win with
  | none => exact h
  | some w =>
    unfold WindowManager.windowDestroy
    dsimp only
    have hgone : WmInv made ((({ s with
        focusedWindow := if s.focusedWindow = some w then none else s.focusedWindow
        previousFocus := if s.previousFocus = some w then none else s.previousFocus
        modalWindow := if s.modalWindow = some w then none else s.modalWindow
        links := s.links.listDel .null (.win w)
        zOrdered := s.zOrdered.erase w
        windows := Function.update s.windows (s.window w).id none
        windowCount := s.windowCount - 1 } : WindowManager)).modify w fun win =>
          { win with state := .destroyed }) :=
      ⟨h.table.remove (hwin w rfl) rfl rfl fun v => id_update (by rfl) v, h.stray.listDel w⟩
    split <;> exact hgone

theorem unlink (h : WmInv made s) (w : ℕ) : WmInv made (s.unlink w) :=
  ⟨h.table.congr rfl rfl fun _ _ => rfl, (h.stray.listDel w).initListHead w⟩

theorem windowShow (h : WmInv made s) (win : Option ℕ) : WmInv made (s.windowShow win).1 := by
  cases win with
  | none => exact h
  | some w =>
    unfold WindowManager.windowShow
    dsimp only
    split
    · exact h
    · dsimp only
      refine h.modify ?_
      rfl

theorem windowHide (h : WmInv made s) (win : Option ℕ) : WmInv made (s.windowHide win).1 := by
  cases win with
  | none => exact h
  | some w =>
    unfold WindowManager.windowHide
    dsimp only
    split
    · exact h
    · refine WmInv.unlink (h.modify ?_) w
      rfl

theorem windowMinimize (h : WmInv made s) (win : Option ℕ) : WmInv made (s.windowMinimize win).1 := by
  cases win with
  | none => exact h
  | some w =>
    unfold WindowManager.windowMinimize
    dsimp only
    split
    · exact h
    · refine WmInv.unlink (h.modify ?_) w
      rfl

theorem windowRestore (h : WmInv made s) (win : Option ℕ) : WmInv made (s.windowRestore win).1 := by
  cases win with
  | none => exact h
  | some w =>
    unfold WindowManager.windowRestore
    dsimp only
    split
    · refine ⟨h.table.congr rfl rfl fun v _ => ?_, h.stray.listAdd_visible w⟩
      dsimp only [WindowManager.modify]
      exact id_update (by rfl) v
    · dsimp only
      refine h.modify ?_
      rfl
    · exact h

theorem saveFocus (h : WmInv made s) (w : ℕ) : WmInv made (s.saveFocus w) := by
  unfold WindowManager.saveFocus
  split
  · exact h
  · split
    · exact h
    · refine h.congr rfl rfl (fun v _ => ?_) rfl
      dsimp only [WindowManager.modify]
      exact id_update (by rfl) v

theorem resume (h : WmInv made s) (f : Frame) : WmInv made (s.resume f).1 := by
  cases f with
  | focus w =>
    unfold WindowManager.resume WindowManager.windowFocus
    dsimp only
    split
    · exact h
    · have hold := h.saveFocus w
      refine hold.congr rfl rfl (fun v _ => ?_) rfl
      dsimp only [WindowManager.modify]
      exact id_update (by rfl) v
  | raise w =>
    obtain ⟨hwindows, hcount, hlinks, -⟩ := updateZIndices_frame
        { s with zOrdered := w :: s.zOrdered.erase w }
    exact h.congr hwindows hcount (fun v _ => updateZIndices_id _ v) hlinks
  | unfocus w =>
    unfold WindowManager.resume WindowManager.windowUnfocus
    dsimp only
    split
    · split
      · exact h
      · refine h.congr rfl rfl (fun v _ => ?_) rfl
        dsimp only [WindowManager.modify]
        exact id_update (by rfl) v
    · exact h

end WmInv

structure CallersInv (width height : ℤ) (made : Prop) (c : Callers) : Prop where
  wm : WmInv made c.wm
  untouched : ¬made → c.wm = windowManagerInit width height ∧ ∀ fs ∈ c.frames, fs = []

namespace CallersInv

variable {width height : ℤ}

theorem not_live_init (w : ℕ) : ¬(windowManagerInit width height).Live w := fun ⟨_, _, hw⟩ =>
  absurd hw.symm (Option.some_ne_none w)

theorem untouched_none (h : CallersInv width height made c) (hmade : ¬made) {win : Option ℕ}
    (hwin : ∀ w ∈ win, c.wm.Live w) : win = none := by
  rw [Option.eq_none_iff_forall_not_mem]
  intro w hw
  have hlive := hwin w hw
  rw [(h.untouched hmade).1] at hlive
  exact not_live_init w hlive

theorem call (h : CallersInv width height made c) {call : WindowCall}
    (hallowed : WindowStep.Allowed c (.call call)) :
    WmInv (made ∨ WindowStep.Allocates (.call call)) (call.run c.wm).1 ∧
      (¬(made ∨ WindowStep.Allocates (.call call)) → call.run c.wm = (c.wm, [])) := by
  have hkept {t : WindowManager} (ht : WmInv made t) : WmInv (made ∨ False) t :=
      ht.imp (or_false made).mp
  cases call with
  | windowCreate mem x y w h' flags =>
    refine ⟨h.wm.windowCreate hallowed (fun hmade => ?_) x y w h' flags, fun hnot => ?_⟩
    · rw [(h.untouched hmade).1]
      exact Option.some_ne_none 1
    · obtain rfl : mem = none := not_not.mp (not_or.mp hnot).2
      rfl
  | windowDestroy win =>
    refine ⟨hkept (h.wm.windowDestroy hallowed), fun hnot => ?_⟩
    rw [h.untouched_none (not_or.mp hnot).1 hallowed]
    rfl
  | windowShow win =>
    refine ⟨hkept (h.wm.windowShow win), fun hnot => ?_⟩
    rw [h.untouched_none (not_or.mp hnot).1 hallowed]
    rfl
  | windowHide win =>
    refine ⟨hkept (h.wm.windowHide win), fun hnot => ?_⟩
    rw [h.untouched_none (not_or.mp hnot).1 hallowed]
    rfl
  | windowMinimize win =>
    refine ⟨hkept (h.wm.windowMinimize win), fun hnot => ?_⟩
    rw [h.untouched_none (not_or.mp hnot).1 hallowed]
    rfl
  | windowRestore win =>
    refine ⟨hkept (h.wm.windowRestore win), fun hnot => ?_⟩
    rw [h.untouched_none (not_or.mp hnot).1 hallowed]
    rfl

theorem step (h : CallersInv width height made c) {s : WindowStep} (hallowed : s.Allowed c) :
    CallersInv width height (made ∨ s.Allocates) (c.step s) := by
  cases s with
  | call call =>
    obtain ⟨hwm, hsame⟩ := h.call hallowed
    refine ⟨hwm, fun hnot => ?_⟩
    obtain ⟨hinit, hframes⟩ := h.untouched (not_or.mp hnot).1
    rw [Callers.step, hsame hnot]
    refine ⟨hinit, fun fs hfs => ?_⟩
    rcases List.mem_append.mp hfs with hfs | hfs
    · exact hframes fs hfs
    · exact List.mem_singleton.mp hfs
  | resume i =>
    have hiff : made ∨ WindowStep.Allocates (.resume i) ↔ made := or_iff_left id
    rw [hiff, Callers.step]
    split
    · rename_i f rest hi
      refine ⟨h.wm.resume f, fun hnot => ?_⟩
      have hempty := (h.untouched hnot).2 _ (List.mem_of_getElem? hi)
      exact absurd hempty (List.cons_ne_nil f rest)
    · exact h

theorem run (h : CallersInv width height made c) {steps : List WindowStep}
    (hsteps : Meets (fun c s => some (c.step s)) (fun c s => s.Allowed c) c steps) :
    CallersInv width height (made ∨ ∃ s ∈ steps, s.Allocates) (steps.foldl Callers.step c) := by
  induction steps generalizing c made with
  | nil =>
    have hiff : (made ∨ ∃ s ∈ ([] : List WindowStep), s.Allocates) ↔ made :=
      or_iff_left fun ⟨_, hs, _⟩ => List.not_mem_nil hs
    rw [hiff]
    exact h
  | cons s steps ih =>
    rw [List.exists_mem_cons_iff, ← or_assoc]
    exact ih (h.step hsteps.1) (hsteps.2 _ rfl)

theorem start : CallersInv width height False ⟨windowManagerInit width height, []⟩ where
  wm := .start width height
  untouched _ := ⟨rfl, fun _ hfs => absurd hfs List.not_mem_nil⟩

end CallersInv

theorem listsOk_init (width height : ℤ) : ListsOk (windowManagerInit width height) where
  all := ⟨[], .empty rfl rfl, fun w => iff_of_false List.not_mem_nil (CallersInv.not_live_init w)⟩
  visible := ⟨[], .empty rfl rfl, fun w => iff_of_false List.not_mem_nil fun hw =>
    CallersInv.not_live_init w hw.1⟩

theorem lists_ok_iff {width height : ℤ} {steps : List WindowStep}
    (hsteps : Meets (fun c s => some (Callers.step c s)) (fun c s => s.Allowed c)
      ⟨windowManagerInit width height, []⟩ steps) :
    CountOk (steps.foldl Callers.step ⟨windowManagerInit width height, []⟩).wm ∧
      (ListsOk (steps.foldl Callers.step ⟨windowManagerInit width height, []⟩).wm ↔
        ∀ s ∈ steps, ¬s.Allocates) := by
  have hinv := CallersInv.start.run hsteps
  refine ⟨hinv.wm.table.count, fun hok s hs hallocates => ?_, fun hnone => ?_⟩
  · obtain ⟨l, hcircular, -⟩ := hok.all
    exact (hinv.wm.imp fun _ : True => .inr ⟨s, hs, hallocates⟩).stray.not_circular _ hcircular
  · have hnot : ¬(False ∨ ∃ s ∈ steps, s.Allocates) := by
      rintro (hfalse | ⟨s, hs, hallocates⟩)
      · exact hfalse
      · exact hnone s hs hallocates
    rw [(hinv.untouched hnot).1]
    exact listsOk_init width height

def nullCalls : List WindowStep := [.call (.windowCreate none 0 0 200 100 0), .call (.windowHide none)]

def oneWindow : List WindowStep :=
  [.call (.windowCreate (some 5) 0 0 200 100 0), .call (.windowHide (some 5)),
    .call (.windowDestroy (some 5))]

theorem lists_ok_iff_two_runs :
    ListsOk (nullCalls.foldl Callers.step ⟨windowManagerInit 800 600, []⟩).wm ∧
      CountOk (oneWindow.foldl Callers.step ⟨windowManagerInit 800 600, []⟩).wm ∧
      ¬ListsOk (oneWindow.foldl Callers.step ⟨windowManagerInit 800 600, []⟩).wm := by
  obtain ⟨hcount, hiff⟩ := @lists_ok_iff 800 600 oneWindow (by decide +kernel)
  refine ⟨(lists_ok_iff (by decide +kernel)).2.mpr ?_, hcount, fun hok => ?_⟩
  · simp [nullCalls, WindowStep.Allocates]
  · exact hiff.mp hok _ (List.mem_cons_self ..) (Option.some_ne_none 5)

/-- After the first window the head of `all_windows` leads to the window, and the window to the head of
`visible_windows`. -/
theorem first_window_lost :
    let c := Callers.step ⟨windowManagerInit 800 600, []⟩ (.call (.windowCreate (some 5) 0 0 200 100 0))
    c.wm.Live 5 ∧ c.wm.links.next .all = .win 5 ∧ c.wm.links.next (.win 5) = .visible ∧
      ¬ListsOk c.wm := by
  refine ⟨⟨1, by decide, rfl⟩, rfl, rfl, fun hok => ?_⟩
  obtain ⟨l, hcircular, -⟩ := hok.all
  have hwm := @WmInv.windowCreate _ _ (.start 800 600) (some 5)
    (fun w _ => CallersInv.not_live_init w) (fun _ => Option.some_ne_none 1) 0 0 200 100 0
  exact (hwm.imp fun _ : True => .inr (Option.some_ne_none 5)).stray.not_circular _ hcircular

end GcAos.Gui.Manager
