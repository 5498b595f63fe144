import GcAos.Gui.Compositor
import GcAos.Lib.Loop
import Mathlib.Computability.StateTransition
import Mathlib.Data.Set.Prod
import Mathlib.Order.Interval.Set.Basic

/-! The pixels that the dirty rectangles cover, when they are marked and when they are merged. -/

namespace GcAos.Gui.Composite
open Lib
open StateTransition (Reaches)

theorem clampAxis_eq {size : ℕ} {place length : ℤ} (hsize : size < 2 ^ 31) (hplace : IsInt place)
    (hend : IsInt (place + length)) :
    clampAxis size place length = (max place 0, min (place + length) size - max place 0) := by
  obtain ⟨hlow, hhigh⟩ := hplace
  have hint : toInt size = size := toInt_of_isInt ⟨by omega, by omega⟩
  unfold clampAxis
  by_cases hneg : place < 0
  · rw [if_pos hneg]
    simp only [zero_add, sub_zero]
    rw [add_comm length, toInt_of_isInt hend, toInt_of_isInt hend, hint, max_eq_right hneg.le, sub_zero]
    refine Prod.ext rfl ?_
    dsimp only
    split <;> omega
  · rw [if_neg hneg]
    dsimp only
    rw [toInt_of_isInt hend, hint, max_eq_left (not_lt.mp hneg)]
    refine Prod.ext rfl ?_
    dsimp only
    split
    · have hrest : IsInt (size - place) := ⟨by omega, by omega⟩
      rw [toInt_of_isInt hrest]
      omega
    · omega

namespace DirtyRect

variable (r : DirtyRect)

def pixels : Set (ℤ × ℤ) := Set.Ico r.x (r.x + r.width) ×ˢ Set.Ico r.y (r.y + r.height)

structure Fits : Prop where
  x : IsInt r.x
  y : IsInt r.y
  right : IsInt (r.x + r.width)
  bottom : IsInt (r.y + r.height)

structure Nonempty : Prop where
  width : 0 < r.width
  height : 0 < r.height

variable {r} {e : DirtyRect}

theorem Fits.right_eq (h : r.Fits) : r.right = r.x + r.width := toInt_of_isInt h.right

theorem Fits.bottom_eq (h : r.Fits) : r.bottom = r.y + r.height := toInt_of_isInt h.bottom

theorem Inside.pixels_subset (hr : r.Fits) (he : e.Fits) (h : r.Inside e) : r.pixels ⊆ e.pixels := by
  obtain ⟨hx, hy, hright, hbottom⟩ := h
  rw [hr.right_eq, he.right_eq] at hright
  rw [hr.bottom_eq, he.bottom_eq] at hbottom
  exact Set.prod_mono (Set.Ico_subset_Ico hx hright) (Set.Ico_subset_Ico hy hbottom)

end DirtyRect

def covered (rects : List DirtyRect) : Set (ℤ × ℤ) := {p | ∃ r ∈ rects, p ∈ r.pixels}

@[simp] theorem covered_nil : covered [] = ∅ := by
  simp [covered]

@[simp] theorem covered_cons (r : DirtyRect) (rects : List DirtyRect) :
    covered (r :: rects) = r.pixels ∪ covered rects := by
  ext p
  simp [covered]

@[simp] theorem covered_append (rects rects' : List DirtyRect) :
    covered (rects ++ rects') = covered rects ∪ covered rects' := by
  ext p
  simp [covered, or_and_right, exists_or]

/-! Marking. -/

namespace Compositor

variable (g : Compositor)

def screen : Set (ℤ × ℤ) := Set.Ico 0 (g.screenWidth : ℤ) ×ˢ Set.Ico 0 (g.screenHeight : ℤ)

end Compositor

section Marking

variable {g : Compositor} {r e : DirtyRect} {rects : List DirtyRect} {x y width height : ℤ}

/-- A rectangle that is not empty and in a screen of `w` columns and `h` rows. -/
structure OnScreen (w h : ℕ) (r : DirtyRect) : Prop where
  nonempty : r.Nonempty
  left : 0 ≤ r.x
  top : 0 ≤ r.y
  right : r.x + r.width ≤ w
  bottom : r.y + r.height ≤ h

theorem OnScreen.fits {w h : ℕ} (hr : OnScreen w h r) (hw : w < 2 ^ 31) (hh : h < 2 ^ 31) : r.Fits := by
  obtain ⟨⟨hwidth, hheight⟩, hleft, htop, hright, hbottom⟩ := hr
  exact ⟨⟨by omega, by omega⟩, ⟨by omega, by omega⟩, ⟨by omega, by omega⟩, ⟨by omega, by omega⟩⟩

theorem clampDirty_eq (hw : g.screenWidth < 2 ^ 31) (hh : g.screenHeight < 2 ^ 31) (hr : r.Fits) :
    g.clampDirty r.x r.y r.width r.height =
      { x := max r.x 0
        y := max r.y 0
        width := min (r.x + r.width) g.screenWidth - max r.x 0
        height := min (r.y + r.height) g.screenHeight - max r.y 0 } := by
  rw [Compositor.clampDirty, clampAxis_eq hw hr.x hr.right, clampAxis_eq hh hr.y hr.bottom]

theorem pixels_clampDirty (hw : g.screenWidth < 2 ^ 31) (hh : g.screenHeight < 2 ^ 31) (hr : r.Fits) :
    (g.clampDirty r.x r.y r.width r.height).pixels = r.pixels ∩ g.screen := by
  rw [clampDirty_eq hw hh hr, DirtyRect.pixels, DirtyRect.pixels, Compositor.screen, Set.prod_inter_prod,
    Set.Ico_inter_Ico, Set.Ico_inter_Ico]
  simp only [add_sub_cancel]

theorem onScreen_clampDirty (hw : g.screenWidth < 2 ^ 31) (hh : g.screenHeight < 2 ^ 31) (hr : r.Fits)
    (hne : (g.clampDirty r.x r.y r.width r.height).Nonempty) :
    OnScreen g.screenWidth g.screenHeight (g.clampDirty r.x r.y r.width r.height) := by
  refine ⟨hne, ?_, ?_, ?_, ?_⟩
  all_goals
    rw [clampDirty_eq hw hh hr]
    dsimp only
    omega

theorem absorb_spec {rects' : List DirtyRect} (hr : r.Fits) (hrects : ∀ e ∈ rects, e.Fits)
    (h : absorb r rects = some rects') :
    r.pixels ∪ covered rects ⊆ covered rects' ∧ (∀ e ∈ rects', e = r ∨ e ∈ rects) ∧
      rects'.length = rects.length := by
  induction rects generalizing rects' with
  | nil => exact absurd h (by simp [absorb])
  | cons e rects ih =>
    have he : e.Fits := hrects e (List.mem_cons_self ..)
    rw [absorb] at h
    split_ifs at h with hin hout
    · obtain rfl := Option.some.inj h
      have hsub : r.pixels ⊆ e.pixels := hin.pixels_subset hr he
      rw [covered_cons]
      exact ⟨Set.union_subset (hsub.trans Set.subset_union_left) subset_rfl, fun _ => .inr, rfl⟩
    · obtain rfl := Option.some.inj h
      have hsub : e.pixels ⊆ r.pixels := hout.pixels_subset he hr
      refine ⟨?_, ?_, rfl⟩
      · rw [covered_cons, covered_cons]
        exact Set.union_subset Set.subset_union_left (Set.union_subset_union_left _ hsub)
      · intro e' he'
        exact (List.mem_cons.mp he').imp_right (List.mem_cons_of_mem e)
    · obtain ⟨tail, htail, rfl⟩ := Option.map_eq_some_iff.mp h
      obtain ⟨hcov, hmem, hlen⟩ := ih (fun e he => hrects e (List.mem_cons_of_mem _ he)) htail
      refine ⟨?_, ?_, by rw [List.length_cons, List.length_cons, hlen]⟩
      · rw [covered_cons, covered_cons, Set.union_left_comm]
        exact Set.union_subset_union_right _ hcov
      · intro e' he'
        rcases List.mem_cons.mp he' with rfl | he'
        · exact .inr (List.mem_cons_self ..)
        · exact (hmem e' he').imp_right (List.mem_cons_of_mem e)

/-- The state of the damage tracking after `damage` has been marked. -/
structure Tracks (g : Compositor) (damage : Set (ℤ × ℤ)) : Prop where
  onScreen : ∀ r ∈ g.dirtyRegion.rects, OnScreen g.screenWidth g.screenHeight r
  count : g.dirtyRegion.rects.length ≤ compositorMaxDirtyRects
  covers : g.dirtyRegion.fullRedraw = true ∨ damage ⊆ covered g.dirtyRegion.rects

/-- `compositor_mark_dirty` on the four arguments in `r`. -/
def markRect (g : Compositor) (r : DirtyRect) : Compositor :=
  g.compositorMarkDirty r.x r.y r.width r.height

theorem markRect_size (g : Compositor) (r : DirtyRect) :
    (markRect g r).screenWidth = g.screenWidth ∧ (markRect g r).screenHeight = g.screenHeight := by
  unfold markRect Compositor.compositorMarkDirty
  dsimp only
  split_ifs
  · exact ⟨rfl, rfl⟩
  · exact ⟨rfl, rfl⟩
  · split <;> exact ⟨rfl, rfl⟩

theorem pixels_of_empty (h : r.width ≤ 0 ∨ r.height ≤ 0) : r.pixels = ∅ := by
  rw [DirtyRect.pixels, Set.prod_eq_empty_iff]
  exact h.imp (fun hle => Set.Ico_eq_empty (by omega)) fun hle => Set.Ico_eq_empty (by omega)

variable {damage : Set (ℤ × ℤ)}

theorem Tracks.markRect (hw : g.screenWidth < 2 ^ 31) (hh : g.screenHeight < 2 ^ 31) (hr : r.Fits)
    (h : Tracks g damage) : Tracks (markRect g r) (damage ∪ r.pixels ∩ g.screen) := by
  have hpixels := pixels_clampDirty hw hh hr
  have hscreen := onScreen_clampDirty hw hh hr
  rw [Composite.markRect, Compositor.compositorMarkDirty]
  dsimp only
  generalize g.clampDirty r.x r.y r.width r.height = r' at hpixels hscreen ⊢
  rw [← hpixels]
  by_cases hempty : r'.width ≤ 0 ∨ r'.height ≤ 0
  · rw [if_pos hempty, pixels_of_empty hempty, Set.union_empty]
    exact h
  rw [if_neg hempty]
  have hr' : OnScreen g.screenWidth g.screenHeight r' := hscreen ⟨by omega, by omega⟩
  by_cases hfull : compositorMaxDirtyRects ≤ g.dirtyRegion.rects.length
  · rw [if_pos hfull]
    exact ⟨h.onScreen, h.count, .inl rfl⟩
  rw [if_neg hfull]
  have hfits : ∀ e ∈ g.dirtyRegion.rects, e.Fits := fun e he => (h.onScreen e he).fits hw hh
  cases habs : absorb r' g.dirtyRegion.rects with
  | some rects =>
    obtain ⟨hcov, hmem, hlen⟩ := absorb_spec (hr'.fits hw hh) hfits habs
    refine ⟨fun e he => ?_, ?_, h.covers.imp_right fun hcovers => ?_⟩
    · rcases hmem e he with rfl | he
      · exact hr'
      · exact h.onScreen e he
    · exact hlen.le.trans h.count
    · rw [Set.union_comm]
      exact (Set.union_subset_union_right _ hcovers).trans hcov
  | none =>
    refine ⟨fun e he => ?_, ?_, h.covers.imp_right fun hcovers => ?_⟩
    · rcases List.mem_append.mp he with he | he
      · exact h.onScreen e he
      · rw [List.mem_singleton.mp he]
        exact hr'
    · rw [List.length_append, List.length_singleton]
      omega
    · rw [covered_append, covered_cons, covered_nil, Set.union_empty]
      exact Set.union_subset_union_left _ hcovers

theorem Tracks.foldl {marks : List DirtyRect} (hw : g.screenWidth < 2 ^ 31)
    (hh : g.screenHeight < 2 ^ 31) (hmarks : ∀ r ∈ marks, r.Fits) (h : Tracks g damage) :
    Tracks (marks.foldl Composite.markRect g) (damage ∪ covered marks ∩ g.screen) ∧
      (marks.foldl Composite.markRect g).screen = g.screen := by
  induction marks generalizing g damage with
  | nil => simpa using h
  | cons r marks ih =>
    obtain ⟨hwidth, hheight⟩ := markRect_size g r
    have hscreen : (Composite.markRect g r).screen = g.screen := by
      rw [Compositor.screen, hwidth, hheight, Compositor.screen]
    have hstep := h.markRect hw hh (hmarks r (List.mem_cons_self ..))
    obtain ⟨htracks, hsame⟩ := ih (hwidth ▸ hw) (hheight ▸ hh)
      (fun e he => hmarks e (List.mem_cons_of_mem _ he)) hstep
    rw [List.foldl_cons, covered_cons, Set.union_inter_distrib_right, ← Set.union_assoc]
    rw [hscreen] at htracks hsame
    exact ⟨htracks, hsame⟩

/-- Whatever has been marked since the tracking was cleared is covered, or the screen is redrawn. -/
theorem markDirty_covers (g : Compositor) (marks : List DirtyRect) (hw : g.screenWidth < 2 ^ 31)
    (hh : g.screenHeight < 2 ^ 31) (hmarks : ∀ r ∈ marks, r.Fits) :
    let region := (marks.foldl markRect g.compositorClearDirty).dirtyRegion
    (region.fullRedraw = true ∨ covered marks ∩ g.screen ⊆ covered region.rects) ∧
      (∀ r ∈ region.rects, r.Nonempty ∧ r.pixels ⊆ g.screen) ∧
        region.rects.length ≤ compositorMaxDirtyRects := by
  have hclear : Tracks g.compositorClearDirty ∅ :=
    ⟨fun r hr => absurd hr List.not_mem_nil, Nat.zero_le _, .inr (Set.empty_subset _)⟩
  obtain ⟨htracks, hscreen⟩ := hclear.foldl (g := g.compositorClearDirty) hw hh hmarks
  rw [Set.empty_union] at htracks
  refine ⟨htracks.covers, fun r hr => ?_, htracks.count⟩
  have hr := htracks.onScreen r hr
  have hsub : r.pixels ⊆ (marks.foldl markRect g.compositorClearDirty).screen :=
    Set.prod_mono (Set.Ico_subset_Ico hr.left hr.right) (Set.Ico_subset_Ico hr.top hr.bottom)
  rw [hscreen] at hsub
  exact ⟨hr.nonempty, hsub⟩

def edgeMarks : List DirtyRect := [⟨-2, 0, 5, 3⟩, ⟨6, 2, 9, 2⟩]

def smallScreen : Compositor := { screenWidth := 8, screenHeight := 4, screenPitch := 32 }

theorem markDirty_covers_edge :
    covered edgeMarks ∩ smallScreen.screen ⊆ covered [⟨0, 0, 3, 3⟩, ⟨6, 2, 2, 2⟩] := by
  have hmarks : ∀ r ∈ edgeMarks, r.Fits := by
    intro r hr
    fin_cases hr <;> exact ⟨by decide, by decide, by decide, by decide⟩
  have hregion : (edgeMarks.foldl markRect smallScreen.compositorClearDirty).dirtyRegion =
      ⟨[⟨0, 0, 3, 3⟩, ⟨6, 2, 2, 2⟩], false⟩ := by decide +kernel
  have h := (markDirty_covers smallScreen edgeMarks (by decide) (by decide) hmarks).1
  rw [hregion] at h
  exact h.resolve_left (by decide)

end Marking

/-! Merging. -/

section Merging

variable {a b : DirtyRect} {rects rest : List DirtyRect}

/-- Of the sides from `p` to `pEnd` and from `q` to `qEnd`: when the second ends last, the length of
both together is an `int`, and otherwise it does not start first. -/
def SideKeeps (p pEnd q qEnd : ℤ) : Prop :=
  (pEnd < qEnd → IsInt (qEnd - min p q)) ∧ (qEnd ≤ pEnd → p ≤ q)

instance (p pEnd q qEnd : ℤ) : Decidable (SideKeeps p pEnd q qEnd) :=
  inferInstanceAs (Decidable ((_ → _) ∧ (_ → _)))

def MergeKeeps (a b : DirtyRect) : Prop :=
  SideKeeps a.x a.right b.x b.right ∧ SideKeeps a.y a.bottom b.y b.bottom

instance (a b : DirtyRect) : Decidable (MergeKeeps a b) := inferInstanceAs (Decidable (_ ∧ _))

theorem sideKeeps_iff {p pLen q qLen : ℤ} (hp : 0 < pLen) (hq : 0 < qLen) :
    SideKeeps p (p + pLen) q (q + qLen) ↔
      Set.Ico p (p + pLen) ∪ Set.Ico q (q + qLen) ⊆ Set.Ico (min p q)
        (min p q + if p + pLen < q + qLen then toInt (q + qLen - min p q) else pLen) := by
  rw [Set.union_subset_iff, Set.Ico_subset_Ico_iff (by omega), Set.Ico_subset_Ico_iff (by omega)]
  by_cases hlast : p + pLen < q + qLen
  · rw [if_pos hlast]
    constructor
    · rintro ⟨hint, -⟩
      rw [toInt_of_isInt (hint hlast)]
      omega
    · rintro ⟨-, -, hend⟩
      obtain ⟨-, hsmall⟩ := isInt_toInt (q + qLen - min p q)
      exact ⟨fun _ => ⟨by omega, by omega⟩, fun hle => by omega⟩
  · rw [if_neg hlast]
    constructor
    · rintro ⟨-, hle⟩
      have := hle (not_lt.mp hlast)
      omega
    · rintro ⟨⟨-, hend⟩, -⟩
      exact ⟨fun hlt => absurd hlt hlast, fun _ => by omega⟩

theorem SideKeeps.len {p pLen q qLen : ℤ} (hp : 0 < pLen) (hpEnd : IsInt (p + pLen))
    (hqEnd : IsInt (q + qLen)) (h : SideKeeps p (p + pLen) q (q + qLen)) :
    0 < (if p + pLen < q + qLen then toInt (q + qLen - min p q) else pLen) ∧
      IsInt (min p q + if p + pLen < q + qLen then toInt (q + qLen - min p q) else pLen) := by
  obtain ⟨hint, hle⟩ := h
  by_cases hlast : p + pLen < q + qLen
  · rw [if_pos hlast, toInt_of_isInt (hint hlast), add_sub_cancel]
    exact ⟨by omega, hqEnd⟩
  · rw [if_neg hlast, min_eq_left (hle (not_lt.mp hlast))]
    exact ⟨hp, hpEnd⟩

theorem isInt_min {p q : ℤ} (hp : IsInt p) (hq : IsInt q) : IsInt (min p q) := by
  rcases min_choice p q with h | h <;> rwa [h]

structure Proper (r : DirtyRect) : Prop where
  nonempty : r.Nonempty
  fits : r.Fits

theorem Proper.pixels_subset_iff (ha : Proper a) : a.pixels ⊆ b.pixels ↔
    Set.Ico a.x (a.x + a.width) ⊆ Set.Ico b.x (b.x + b.width) ∧
      Set.Ico a.y (a.y + a.height) ⊆ Set.Ico b.y (b.y + b.height) := by
  obtain ⟨hwidth, hheight⟩ := ha.nonempty
  have hx : (Set.Ico a.x (a.x + a.width)).Nonempty := Set.nonempty_Ico.mpr (by omega)
  have hy : (Set.Ico a.y (a.y + a.height)).Nonempty := Set.nonempty_Ico.mpr (by omega)
  rw [DirtyRect.pixels, DirtyRect.pixels, Set.prod_subset_prod_iff, or_iff_left]
  exact fun h => h.elim hx.ne_empty hy.ne_empty

theorem merge_eq (ha : Proper a) (hb : Proper b) : a.merge b =
    { x := min a.x b.x
      y := min a.y b.y
      width := if a.x + a.width < b.x + b.width then toInt (b.x + b.width - min a.x b.x) else a.width
      height := if a.y + a.height < b.y + b.height then toInt (b.y + b.height - min a.y b.y)
        else a.height } := by
  have hx : (if b.x < a.x then b.x else a.x) = min a.x b.x := by
    split <;> omega
  have hy : (if b.y < a.y then b.y else a.y) = min a.y b.y := by
    split <;> omega
  rw [DirtyRect.merge, ha.fits.right_eq, ha.fits.bottom_eq, hb.fits.right_eq, hb.fits.bottom_eq, hx, hy]

theorem mergeKeeps_iff (ha : Proper a) (hb : Proper b) :
    MergeKeeps a b ↔ a.pixels ∪ b.pixels ⊆ (a.merge b).pixels := by
  obtain ⟨haw, hah⟩ := ha.nonempty
  obtain ⟨hbw, hbh⟩ := hb.nonempty
  rw [MergeKeeps, ha.fits.right_eq, ha.fits.bottom_eq, hb.fits.right_eq, hb.fits.bottom_eq,
    sideKeeps_iff haw hbw, sideKeeps_iff hah hbh, merge_eq ha hb, Set.union_subset_iff,
    Set.union_subset_iff, Set.union_subset_iff, ha.pixels_subset_iff, hb.pixels_subset_iff]
  exact and_and_and_comm

theorem Proper.merge (ha : Proper a) (hb : Proper b) (h : MergeKeeps a b) : Proper (a.merge b) := by
  obtain ⟨hx, hy⟩ := h
  rw [ha.fits.right_eq, hb.fits.right_eq] at hx
  rw [ha.fits.bottom_eq, hb.fits.bottom_eq] at hy
  obtain ⟨hwidth, hright⟩ := hx.len ha.nonempty.width ha.fits.right hb.fits.right
  obtain ⟨hheight, hbottom⟩ := hy.len ha.nonempty.height ha.fits.bottom hb.fits.bottom
  rw [merge_eq ha hb]
  exact ⟨⟨hwidth, hheight⟩,
    ⟨isInt_min ha.fits.x hb.fits.x, isInt_min ha.fits.y hb.fits.y, hright, hbottom⟩⟩

theorem mergeFirst_of_find {pre post : List DirtyRect} (hpre : ∀ e ∈ pre, ¬a.Touches e)
    (hb : a.Touches b) : mergeFirst a (pre ++ b :: post) = some (a.merge b, pre ++ post) := by
  induction pre with
  | nil => rw [List.nil_append, mergeFirst, if_pos hb, List.nil_append]
  | cons e pre ih =>
    rw [List.cons_append, mergeFirst, if_neg (hpre e (List.mem_cons_self ..)),
      ih fun e he => hpre e (List.mem_cons_of_mem _ he)]
    rfl

theorem mergeFirst_eq_none (h : ∀ e ∈ rest, ¬a.Touches e) : mergeFirst a rest = none := by
  induction rest with
  | nil => rfl
  | cons e rest ih =>
    rw [mergeFirst, if_neg (h e (List.mem_cons_self ..)), ih fun e he => h e (List.mem_cons_of_mem _ he)]
    rfl

/-- The rectangle that the turn from `s` merges, and the one that it is merged into. -/
def merging : List DirtyRect × List DirtyRect → Option (DirtyRect × DirtyRect)
  | (_, []) => none
  | (_, a :: rest) => (rest.find? fun b => a.Touches b).map fun b => (a, b)

theorem optimizeTurn_cases (done : List DirtyRect) (a : DirtyRect) (rest : List DirtyRect) :
    (∃ b pre post, rest = pre ++ b :: post ∧ merging (done, a :: rest) = some (a, b) ∧
        optimizeTurn (done, a :: rest) = some (done, a.merge b :: (pre ++ post))) ∨
      merging (done, a :: rest) = none ∧ optimizeTurn (done, a :: rest) = some (done ++ [a], rest) := by
  cases hfind : rest.find? fun b => a.Touches b with
  | some b =>
    obtain ⟨hb, pre, post, rfl, hpre⟩ := List.find?_eq_some_iff_append.mp hfind
    have hb : a.Touches b := of_decide_eq_true hb
    have hpre : ∀ e ∈ pre, ¬a.Touches e := fun e he => by simpa using hpre e he
    refine .inl ⟨b, pre, post, rfl, ?_, ?_⟩
    · rw [merging, hfind, Option.map_some]
    · rw [optimizeTurn, mergeFirst_of_find hpre hb]
  | none =>
    have hnone : ∀ e ∈ rest, ¬a.Touches e := fun e he => by
      simpa using List.find?_eq_none.mp hfind e he
    refine .inr ⟨?_, ?_⟩
    · rw [merging, hfind, Option.map_none]
    · rw [optimizeTurn, mergeFirst_eq_none hnone]

theorem length_optimizeTurn {s t : List DirtyRect × List DirtyRect} (h : optimizeTurn s = some t) :
    t.2.length < s.2.length := by
  obtain ⟨done, _ | ⟨a, rest⟩⟩ := s
  · exact absurd h (by simp [optimizeTurn])
  rcases optimizeTurn_cases done a rest with ⟨b, pre, post, rfl, -, ht⟩ | ⟨-, ht⟩
  · obtain rfl := Option.some.inj (ht.symm.trans h)
    simp
  · obtain rfl := Option.some.inj (ht.symm.trans h)
    simp

def left (s : List DirtyRect × List DirtyRect) : List DirtyRect := s.1 ++ s.2

/-- The merge of the turn from `s`, if it makes one, loses nothing. -/
def TurnKeeps (s : List DirtyRect × List DirtyRect) : Prop :=
  ∀ p ∈ merging s, MergeKeeps p.1 p.2

theorem proper_merging {s : List DirtyRect × List DirtyRect} (hs : ∀ r ∈ left s, Proper r)
    {p : DirtyRect × DirtyRect} (hp : p ∈ merging s) : Proper p.1 ∧ Proper p.2 := by
  obtain ⟨done, _ | ⟨a, rest⟩⟩ := s
  · exact absurd hp (by simp [merging])
  rcases optimizeTurn_cases done a rest with ⟨b, pre, post, rfl, hmerging, -⟩ | ⟨hmerging, -⟩
  · obtain rfl := Option.some.inj (hmerging.symm.trans hp)
    exact ⟨hs a (by simp [left]), hs b (by simp [left])⟩
  · exact absurd (hmerging.symm.trans hp) (by simp)

theorem TurnKeeps.optimizeTurn {s t : List DirtyRect × List DirtyRect}
    (hs : ∀ r ∈ left s, Proper r) (hkeeps : TurnKeeps s) (h : optimizeTurn s = some t) :
    (∀ r ∈ left t, Proper r) ∧ covered (left s) ⊆ covered (left t) := by
  obtain ⟨done, _ | ⟨a, rest⟩⟩ := s
  · exact absurd h (by simp [Composite.optimizeTurn])
  rcases optimizeTurn_cases done a rest with ⟨b, pre, post, rfl, hmerging, ht⟩ | ⟨-, ht⟩
  · obtain rfl := Option.some.inj (ht.symm.trans h)
    obtain ⟨ha, hb⟩ := proper_merging hs hmerging
    have hmerge : MergeKeeps a b := hkeeps (a, b) hmerging
    refine ⟨fun r hr => ?_, ?_⟩
    · simp only [left, List.mem_append, List.mem_cons] at hr
      rcases hr with hr | rfl | hr
      · exact hs r (by simp [left, hr])
      · exact ha.merge hb hmerge
      · exact hs r (by simp only [left, List.mem_append, List.mem_cons]; tauto)
    · have hsub := (mergeKeeps_iff ha hb).mp hmerge
      simp only [left, covered_append, covered_cons]
      refine Set.union_subset_union_right _ ?_
      rw [Set.union_left_comm (covered pre), ← Set.union_assoc]
      exact Set.union_subset_union_left _ hsub
  · obtain rfl := Option.some.inj (ht.symm.trans h)
    have hleft : left (done ++ [a], rest) = left (done, a :: rest) := List.append_assoc done [a] rest
    rw [hleft]
    exact ⟨hs, subset_rfl⟩

/-- The merge of the turn from `s`, if it makes one, covers both rectangles. -/
def TurnCovers (s : List DirtyRect × List DirtyRect) : Prop :=
  ∀ p ∈ merging s, p.1.pixels ∪ p.2.pixels ⊆ (p.1.merge p.2).pixels

theorem turnKeeps_iff {s : List DirtyRect × List DirtyRect} (hs : ∀ r ∈ left s, Proper r) :
    TurnKeeps s ↔ TurnCovers s := by
  refine forall₂_congr fun p hp => ?_
  obtain ⟨ha, hb⟩ := proper_merging hs hp
  exact mergeKeeps_iff ha hb

theorem left_of_reaches {s t : List DirtyRect × List DirtyRect} (hs : ∀ r ∈ left s, Proper r)
    (hkeeps : ∀ u, Reaches optimizeTurn s u → (∀ r ∈ left u, Proper r) → TurnKeeps u)
    (h : Reaches optimizeTurn s t) :
    (∀ r ∈ left t, Proper r) ∧ covered (left s) ⊆ covered (left t) := by
  induction h with
  | refl => exact ⟨hs, subset_rfl⟩
  | tail hreach hturn ih =>
    obtain ⟨hproper, hsub⟩ := ih
    obtain ⟨hproper', hsub'⟩ := (hkeeps _ hreach hproper).optimizeTurn hproper hturn
    exact ⟨hproper', hsub.trans hsub'⟩

/-- None of the rectangles starts left of one before it or above, nor before the screen. -/
def Ordered (rects : List DirtyRect) : Prop :=
  ((0, 0) :: rects.map fun r => (r.x, r.y)).Pairwise (· ≤ ·)

theorem Ordered.turnKeeps {s : List DirtyRect × List DirtyRect} (h : Ordered (left s))
    (hs : ∀ r ∈ left s, Proper r) : TurnKeeps s := by
  obtain ⟨done, _ | ⟨a, rest⟩⟩ := s
  · exact fun p hp => absurd hp (by simp [merging])
  intro p hp
  rcases optimizeTurn_cases done a rest with ⟨b, pre, post, rfl, hmerging, -⟩ | ⟨hmerging, -⟩
  · obtain rfl := Option.some.inj (hmerging.symm.trans hp)
    obtain ⟨ha, hb⟩ : Proper a ∧ Proper b := proper_merging hs hmerging
    obtain ⟨hzero, hpairs⟩ := List.pairwise_cons.mp h
    rw [left, List.map_append, List.pairwise_append, List.map_cons, List.pairwise_cons] at hpairs
    have hab := hpairs.2.1.1 (b.x, b.y) (by simp)
    have h0 := hzero (a.x, a.y) (by simp [left])
    obtain ⟨hright, hbottom⟩ := And.intro hb.fits.right.2 hb.fits.bottom.2
    obtain ⟨hw, hh⟩ := hb.nonempty
    simp only [Prod.mk_le_mk] at hab h0
    show MergeKeeps a b
    rw [MergeKeeps, ha.fits.right_eq, ha.fits.bottom_eq, hb.fits.right_eq, hb.fits.bottom_eq, SideKeeps,
      SideKeeps, min_eq_left hab.1, min_eq_left hab.2]
    exact ⟨⟨fun _ => ⟨by omega, by omega⟩, fun _ => hab.1⟩, fun _ => ⟨by omega, by omega⟩, fun _ => hab.2⟩
  · exact absurd (hmerging.symm.trans hp) (by simp)

/-- A merged rectangle starts where the first of the two does. -/
theorem Ordered.optimizeTurn {s t : List DirtyRect × List DirtyRect} (hs : ∀ r ∈ left s, Proper r)
    (h : Ordered (left s)) (hturn : optimizeTurn s = some t) : Ordered (left t) := by
  obtain ⟨done, _ | ⟨a, rest⟩⟩ := s
  · exact absurd hturn (by simp [Composite.optimizeTurn])
  rcases optimizeTurn_cases done a rest with ⟨b, pre, post, rfl, hmerging, ht⟩ | ⟨-, ht⟩
  · obtain rfl := Option.some.inj (ht.symm.trans hturn)
    obtain ⟨ha, hb⟩ := proper_merging hs hmerging
    have hpairs := (List.pairwise_cons.mp h).2
    rw [left, List.map_append, List.pairwise_append, List.map_cons, List.pairwise_cons] at hpairs
    have hab := hpairs.2.1.1 (b.x, b.y) (by simp)
    have hstart : ((a.merge b).x, (a.merge b).y) = (a.x, a.y) := by
      rw [merge_eq ha hb]
      exact Prod.ext (min_eq_left hab.1) (min_eq_left hab.2)
    refine List.Pairwise.sublist (.cons_cons _ ?_) h
    simp only [left, List.map_append, List.map_cons, hstart]
    exact .append_left (.cons_cons _ (.append_left (List.sublist_cons_self ..) _)) _
  · obtain rfl := Option.some.inj (ht.symm.trans hturn)
    rwa [show left (done ++ [a], rest) = left (done, a :: rest) from List.append_assoc done [a] rest]

theorem Ordered.reaches {s t : List DirtyRect × List DirtyRect} (hs : ∀ r ∈ left s, Proper r)
    (h : Ordered (left s)) (hreach : Reaches Composite.optimizeTurn s t) :
    (∀ r ∈ left t, Proper r) ∧ Ordered (left t) := by
  induction hreach with
  | refl => exact ⟨hs, h⟩
  | tail _ hturn ih =>
    obtain ⟨hproper, hordered⟩ := ih
    exact ⟨((hordered.turnKeeps hproper).optimizeTurn hproper hturn).1, hordered.optimizeTurn hproper hturn⟩

/-- The loop ends. When no turn makes a merge that `MergeKeeps` excludes, which is when every merge
covers both of its rectangles, it loses nothing; and so it does of a list that is ordered. -/
theorem optimizeDirty_covers (rects : List DirtyRect) :
    (∃ rects', Reaches optimizeTurn ([], rects) (rects', [])) ∧
      ((∀ r ∈ rects, Proper r) →
        ((∀ s, Reaches optimizeTurn ([], rects) s → TurnKeeps s) ↔
            ∀ s, Reaches optimizeTurn ([], rects) s → TurnCovers s) ∧
          ((∀ s, Reaches optimizeTurn ([], rects) s → TurnKeeps s) →
            ∀ rects', Reaches optimizeTurn ([], rects) (rects', []) →
              covered rects ⊆ covered rects') ∧
          (Ordered rects → ∀ s, Reaches optimizeTurn ([], rects) s → TurnKeeps s)) := by
  refine ⟨?_, fun hrects => ?_⟩
  · have hstop := Loop.run_stops (fun s : List DirtyRect × List DirtyRect => s.2.length)
      (fun s t => length_optimizeTurn) (le_refl rects.length) (s := ([], rects))
    have hreach := Loop.reaches_run optimizeTurn rects.length ([], rects)
    generalize Loop.run optimizeTurn rects.length ([], rects) = last at hstop hreach
    obtain ⟨done, _ | ⟨a, rest⟩⟩ := last
    · exact ⟨done, hreach⟩
    · rcases optimizeTurn_cases done a rest with ⟨b, pre, post, -, -, ht⟩ | ⟨-, ht⟩
      all_goals exact absurd (hstop.symm.trans ht) (by simp)
  have hstart : ∀ r ∈ left ([], rects), Proper r := hrects
  refine ⟨⟨fun h s hs => ?_, fun h s hs => ?_⟩, fun h rects' hreach => ?_, fun h s hs => ?_⟩
  · exact (turnKeeps_iff (left_of_reaches hstart (fun u hu _ => h u hu) hs).1).mp (h s hs)
  · have hkeeps : ∀ u, Reaches optimizeTurn ([], rects) u → (∀ r ∈ left u, Proper r) → TurnKeeps u :=
      fun u hu hproper => (turnKeeps_iff hproper).mpr (h u hu)
    exact hkeeps s hs (left_of_reaches hstart hkeeps hs).1
  · have hsub := (left_of_reaches hstart (fun u hu _ => h u hu) hreach).2
    rwa [left, left, List.append_nil] at hsub
  · obtain ⟨hproper, hordered⟩ := Ordered.reaches hstart h hs
    exact hordered.turnKeeps hproper

def nested : List DirtyRect := [⟨0, 0, 6, 4⟩, ⟨4, 2, 6, 4⟩]

theorem optimizeDirty_covers_nested : covered nested ⊆ covered [⟨0, 0, 10, 6⟩] := by
  have hfirst : optimizeTurn ([], nested) = some ([], [⟨0, 0, 10, 6⟩]) := by decide
  have hsecond : optimizeTurn ([], [⟨0, 0, 10, 6⟩]) = some ([⟨0, 0, 10, 6⟩], []) := by decide
  have hproper : ∀ r ∈ nested, Proper r := by
    intro r hr
    fin_cases hr <;> exact ⟨⟨by decide, by decide⟩, ⟨by decide, by decide, by decide, by decide⟩⟩
  obtain ⟨-, hcovers, hordered⟩ := (optimizeDirty_covers nested).2 hproper
  exact hcovers (hordered (by simp [Ordered, nested])) _ (.head hfirst (.head hsecond .refl))

/-- The second rectangle starts first and ends last in the first one: its columns from 5 on are lost. -/
theorem optimizeDirty_loses : ∃ rects', Reaches optimizeTurn ([], [⟨5, 0, 5, 1⟩, ⟨0, 0, 6, 1⟩]) (rects', []) ∧
    optimizeTurn (rects', []) = none ∧ (9, 0) ∈ covered [⟨5, 0, 5, 1⟩, ⟨0, 0, 6, 1⟩] ∧
      (9, 0) ∉ covered rects' := by
  have hfirst : optimizeTurn ([], [⟨5, 0, 5, 1⟩, ⟨0, 0, 6, 1⟩]) = some ([], [⟨0, 0, 5, 1⟩]) := by decide
  have hsecond : optimizeTurn ([], [⟨0, 0, 5, 1⟩]) = some ([⟨0, 0, 5, 1⟩], []) := by decide
  refine ⟨_, .head hfirst (.head hsecond .refl), rfl, ?_, ?_⟩
  · simp [DirtyRect.pixels]
  · simp [DirtyRect.pixels]

end Merging

end GcAos.Gui.Composite
