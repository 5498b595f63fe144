import GcAos.Gui.TerminalCursor
import GcAos.Gui.TerminalRender
import GcAos.Lib.Mosaic

/-! What the terminal draws: after every rendering the screen shows what a full redraw would. -/

namespace GcAos.Gui.Term
open Lib

theorem toInt_cells_apart {base width a b p : ℤ} (hwidth : width = 8 ∨ width = 16)
    (ha : 0 ≤ a ∧ a < 2 ^ 26) (hb : 0 ≤ b ∧ b < 2 ^ 26)
    (hpa : toInt (base + a * width) ≤ p ∧ p < toInt (base + a * width) + width)
    (hpb : toInt (base + b * width) ≤ p ∧ p < toInt (base + b * width) + width) : a = b := by
  obtain ⟨k, hk⟩ := exists_toInt (base + a * width)
  obtain ⟨n, hn⟩ := exists_toInt (base + b * width)
  rw [hk] at hpa
  rw [hn] at hpb
  rcases hwidth with rfl | rfl <;> omega

namespace Cells

variable {i : ℤ}

theorem setCell_spec (c : Cells) (ch fg bg : UInt8) (idx : ℤ) :
    (c.setCell idx ch fg bg).chars i = (if i = idx then ch else c.chars i) ∧
      (c.setCell idx ch fg bg).fgColors i = (if i = idx then fg else c.fgColors i) ∧
      (c.setCell idx ch fg bg).bgColors i = (if i = idx then bg else c.bgColors i) :=
  ⟨Function.update_apply .., Function.update_apply .., Function.update_apply ..⟩

def Agree (c c' : Cells) (i : ℤ) : Prop :=
  c.chars i = c'.chars i ∧ c.fgColors i = c'.fgColors i ∧ c.bgColors i = c'.bgColors i

theorem agree_copy (c src : Cells) {count : ℤ} (h : 0 ≤ i ∧ i < count) : (c.copy src count).Agree src i := by
  suffices hcopied : ∀ n : ℕ, i < n → Agree ((List.range n).foldl (fun (dst : Cells) (i : ℕ) =>
      dst.setCell i (src.chars i) (src.fgColors i) (src.bgColors i)) c) src i from
    hcopied count.toNat (by omega)
  intro n
  induction n with
  | zero => exact fun hi => absurd hi (by omega)
  | succ n ih =>
    intro hi
    rw [List.range_succ, List.foldl_append, List.foldl_cons, List.foldl_nil]
    generalize (List.range n).foldl _ c = d at ih ⊢
    obtain ⟨hchars, hfg, hbg⟩ := setCell_spec (i := i) d (src.chars n) (src.fgColors n) (src.bgColors n) n
    unfold Agree
    rw [hchars, hfg, hbg]
    by_cases hlast : i = n
    · rw [if_pos hlast, if_pos hlast, if_pos hlast, hlast]
      exact ⟨rfl, rfl, rfl⟩
    · rw [if_neg hlast, if_neg hlast, if_neg hlast]
      exact ih (by omega)

end Cells

namespace Terminal

variable {font : Font} {t t' : Terminal} {s : Screen}

def grid (t : Terminal) : Set (ℤ × ℤ) := { i | (0 ≤ i.1 ∧ i.1 < t.rows) ∧ 0 ≤ i.2 ∧ i.2 < t.cols }

def tile (t : Terminal) (i : ℤ × ℤ) : Set (ℤ × ℤ) :=
  { p | (t.cellX i.2 ≤ p.1 ∧ p.1 < t.cellX i.2 + 8) ∧ t.cellY i.1 ≤ p.2 ∧ p.2 < t.cellY i.1 + 16 }

def area (t : Terminal) : Set (ℤ × ℤ) :=
  { p | (t.contentX ≤ p.1 ∧ p.1 < t.contentX + (t.cols * termCharW + termPadding * 2)) ∧
    t.contentY ≤ p.2 ∧ p.2 < t.contentY + (t.rows * termCharH + termPadding * 2) }

structure Ready (t : Terminal) : Prop extends Sound t, OnGrid t where
  allocated : t.rows * t.cols ≤ 2 ^ 26
  last : t.lastCursorVisible = true → (t.lastCursorY, t.lastCursorX) ∈ t.grid

theorem Ready.cursor_mem (h : t.Ready) : (t.cursorY, t.cursorX) ∈ t.grid :=
  ⟨⟨h.y_nonneg, h.y_lt⟩, h.x_nonneg, h.x_lt⟩

theorem tile_apart (h : t.Ready) :
    ∀ i ∈ t.grid, ∀ j ∈ t.grid, ∀ p ∈ t.tile i, p ∈ t.tile j → i = j := by
  rintro ⟨row, col⟩ ⟨hrow, hcol⟩ ⟨row', col'⟩ ⟨hrow', hcol'⟩ p ⟨hx, hy⟩ ⟨hx', hy'⟩
  have hdims := h.dims_le
  have hsize := h.allocated
  dsimp only at hrow hcol hrow' hcol'
  have hr : row = row' := toInt_cells_apart (.inr rfl) ⟨by omega, by omega⟩ ⟨by omega, by omega⟩ hy hy'
  have hc : col = col' := toInt_cells_apart (.inl rfl) ⟨by omega, by omega⟩ ⟨by omega, by omega⟩ hx hx'
  rw [hr, hc]

def mosaic (t : Terminal) (h : t.Ready) : Mosaic (ℤ × ℤ) (ℤ × ℤ) where
  grid := t.grid
  tile := t.tile
  area := t.area
  apart := tile_apart h

def content (font : Font) (t : Terminal) (i : ℤ × ℤ) : Screen := t.drawChar font i.1 i.2 fun _ => 0

def picture (font : Font) (t : Terminal) (i : ℤ × ℤ) : Screen :=
  if t.cursorVisible = true ∧ i = (t.cursorY, t.cursorX) then fun _ => termColor 7 else t.content font i

def saved (t : Terminal) : Terminal :=
  { t with
    cells := t.prev
    cursorX := t.lastCursorX
    cursorY := t.lastCursorY
    cursorVisible := t.lastCursorVisible }

def others (t : Terminal) : Set (ℤ × ℤ) :=
  { i | ¬(t.lastCursorVisible = true ∧ i = (t.lastCursorY, t.lastCursorX)) }

theorem content_of_agree {i : ℤ × ℤ} (hcols : t'.cols = t.cols) (hx : t'.contentX = t.contentX)
    (hy : t'.contentY = t.contentY) (h : t'.cells.Agree t.cells (t.index i.1 i.2)) :
    t'.content font i = t.content font i := by
  obtain ⟨hchars, hfg, hbg⟩ := h
  unfold content drawChar cellX cellY
  unfold index at *
  dsimp only
  rw [hcols, hx, hy, hchars, hfg, hbg]

theorem drawChar_draws (h : t.Ready) (s : Screen) (i : ℤ × ℤ) :
    (t.mosaic h).Draws (t.content font) i s (t.drawChar font i.1 i.2 s) :=
  ⟨fun _ hp => (if_pos hp).trans (if_pos hp).symm, fun _ hp => if_neg hp⟩

theorem termDrawCell_draws (h : t.Ready) (s : Screen) {i : ℤ × ℤ} (hi : i ∈ t.grid) :
    (t.mosaic h).Draws (t.content font) i s (t.termDrawCell font i.1 i.2 s) := by
  obtain ⟨hrow, hcol⟩ := hi
  rw [termDrawCell, if_neg (by omega)]
  exact drawChar_draws h s i

theorem background_shows (font : Font) (h : t.Ready) (s : Screen) :
    (t.mosaic h).Shows (t.content font) (termColor 0) ∅
      (s.guiDrawRect t.contentX t.contentY (toInt (t.cols * termCharW + termPadding * 2))
        (toInt (t.rows * termCharH + termPadding * 2)) (termColor 0)) := by
  have hdims := h.dims_le
  have hsize := h.allocated
  have hcols := h.cols_pos
  have hrows := h.rows_pos
  have hwidth : IsInt (t.cols * termCharW + termPadding * 2) := by
    unfold IsInt termCharW termPadding
    omega
  have hheight : IsInt (t.rows * termCharH + termPadding * 2) := by
    unfold IsInt termCharH termPadding
    omega
  rw [toInt_of_isInt hwidth, toInt_of_isInt hheight]
  exact ⟨fun i _ hi => absurd hi (Set.notMem_empty i), fun p hp _ => if_pos hp⟩

theorem redraw_shows (font : Font) (h : t.Ready) (s : Screen) :
    (t.mosaic h).Shows (t.content font) (termColor 0) Set.univ (t.redraw font s) := by
  unfold redraw
  let places := (List.range t.rows.toNat).flatMap fun (row : ℕ) =>
    (List.range t.cols.toNat).map fun (col : ℕ) => ((row : ℤ), (col : ℤ))
  have hplaces : ∀ i, i ∈ places ↔ i ∈ t.grid := by
    rintro ⟨row, col⟩
    simp only [places, List.mem_flatMap, List.mem_map, List.mem_range, Prod.mk.injEq]
    constructor
    · rintro ⟨r, hr, c, hc, rfl, rfl⟩
      exact ⟨⟨by omega, by dsimp only; omega⟩, by omega, by dsimp only; omega⟩
    · rintro ⟨⟨hr₀, hr⟩, hc₀, hc⟩
      exact ⟨row.toNat, by dsimp only at *; omega, col.toNat, by dsimp only at *; omega,
        Int.toNat_of_nonneg hr₀, Int.toNat_of_nonneg hc₀⟩
  have hloop : ∀ s : Screen, (List.range t.rows.toNat).foldl (fun (s : Screen) (row : ℕ) =>
      (List.range t.cols.toNat).foldl (fun (s : Screen) (col : ℕ) => t.termDrawCell font row col s) s) s =
      places.foldl (fun s i => t.termDrawCell font i.1 i.2 s) s := by
    intro s
    rw [List.foldl_flatMap]
    simp only [List.foldl_map]
  dsimp only
  rw [hloop]
  have hdrawn := (background_shows font h s).foldl id Set.univ
    (fun s i hi _ => ⟨(hplaces i).mp hi, termDrawCell_draws h s ((hplaces i).mp hi)⟩)
    (fun _ _ _ hi => absurd trivial hi)
  exact hdrawn.congr fun i hi _ => ⟨.inr ⟨i, (hplaces i).mpr hi, trivial, rfl⟩, rfl⟩

theorem cellCount_eq (h : t.Fits) : t.cellCount = t.rows * t.cols := by
  have hsize := h.size
  have hnonneg := mul_nonneg (zero_le_one.trans h.rows_pos) (zero_le_one.trans h.cols_pos)
  exact toInt_of_isInt ⟨by omega, hsize⟩

def place (t : Terminal) (k : ℤ) : ℤ × ℤ := (k.tdiv t.cols, k.tmod t.cols)

theorem place_index (h : t.Fits) {i : ℤ × ℤ} (hi : i ∈ t.grid) : t.place (t.index i.1 i.2) = i := by
  obtain ⟨row, col⟩ := i
  obtain ⟨hrow, hcol⟩ := hi
  obtain ⟨heq, hnonneg, -⟩ := h.index hrow hcol
  have hcols : 0 < t.cols := h.cols_pos
  obtain ⟨hdiv, hmod⟩ := (Int.ediv_emod_unique hcols).mpr
    ⟨show col + t.cols * row = t.index row col by rw [heq]; ring, hcol.1, hcol.2⟩
  rw [place, Int.tdiv_eq_ediv_of_nonneg hnonneg, Int.tmod_eq_emod_of_nonneg hnonneg, hdiv, hmod]

theorem index_place (h : t.Fits) {k : ℤ} (hk : 0 ≤ k ∧ k < t.rows * t.cols) :
    t.place k ∈ t.grid ∧ t.index (t.place k).1 (t.place k).2 = k := by
  have hcols : 0 < t.cols := h.cols_pos
  have hsize := h.size
  rw [place, Int.tdiv_eq_ediv_of_nonneg hk.1, Int.tmod_eq_emod_of_nonneg hk.1]
  refine ⟨⟨⟨Int.ediv_nonneg hk.1 hcols.le, Int.ediv_lt_of_lt_mul hcols hk.2⟩,
    Int.emod_nonneg k hcols.ne', Int.emod_lt_of_pos k hcols⟩, ?_⟩
  rw [index, Int.ediv_mul_add_emod, toInt_of_isInt ⟨by omega, by omega⟩]

theorem redrawChanged_shows (h : t.Ready)
    (hs : (t.mosaic h).Shows (t.saved.picture font) (termColor 0) Set.univ s) :
    (t.mosaic h).Shows (t.content font) (termColor 0) t.others (t.redrawChanged font s) := by
  have hsize := h.size
  have hcount := cellCount_eq h.toFits
  have hunchanged : (t.mosaic h).Shows (t.content font) (termColor 0)
      { i | i ∈ t.others ∧ ¬t.Changed (t.index i.1 i.2) } s := by
    refine hs.congr fun i _ ⟨hother, hsame⟩ => ⟨trivial, ?_⟩
    obtain ⟨hchars, hfg, hbg⟩ : Cells.Agree t.cells t.prev (t.index i.1 i.2) := by
      simpa only [Changed, Cells.Agree, not_or, not_not] using hsame
    have hcontent : t.saved.content font i = t.content font i :=
      content_of_agree rfl rfl rfl ⟨hchars.symm, hfg.symm, hbg.symm⟩
    exact hcontent.symm.trans (if_neg hother).symm
  have hdraw : ∀ s, ∀ k ∈ List.range t.cellCount.toNat, k ∈ { k : ℕ | t.Changed k } →
      t.place k ∈ t.grid ∧ (t.mosaic h).Draws (t.content font) (t.place k) s
        (if t.Changed k then t.termDrawCell font ((k : ℤ).tdiv t.cols) ((k : ℤ).tmod t.cols) s else s) := by
    intro s k hk hchanged
    have hk := List.mem_range.mp hk
    obtain ⟨hgrid, -⟩ := index_place h.toFits (k := k) ⟨by omega, by omega⟩
    rw [if_pos (show t.Changed k from hchanged)]
    exact ⟨hgrid, termDrawCell_draws h s hgrid⟩
  have hloop := hunchanged.foldl _ _ hdraw fun _ _ _ hsame => if_neg hsame
  refine hloop.congr fun i hi hother => ⟨?_, rfl⟩
  by_cases hchanged : t.Changed (t.index i.1 i.2)
  · obtain ⟨-, hnonneg, hlt⟩ := h.toFits.index hi.1 hi.2
    have hk : ((t.index i.1 i.2).toNat : ℤ) = t.index i.1 i.2 := Int.toNat_of_nonneg hnonneg
    refine .inr ⟨(t.index i.1 i.2).toNat, List.mem_range.mpr (by omega), ?_, ?_⟩
    · show t.Changed ((t.index i.1 i.2).toNat : ℤ)
      rwa [hk]
    · rw [hk]
      exact place_index h.toFits hi
  · exact .inl ⟨hother, hchanged⟩

theorem clearCursor_shows (h : t.Ready)
    (hs : (t.mosaic h).Shows (t.content font) (termColor 0) t.others s) :
    (t.mosaic h).Shows (t.content font) (termColor 0) Set.univ (t.clearCursor font s) := by
  unfold clearCursor
  by_cases hvisible : t.lastCursorVisible = true
  · rw [if_pos hvisible]
    refine (hs.draw (h.last hvisible) (drawChar_draws h s _)).congr fun i _ _ => ⟨?_, rfl⟩
    by_cases hi : i = (t.lastCursorY, t.lastCursorX)
    · exact .inl hi
    · exact .inr fun hcursor => hi hcursor.2
  · rw [if_neg hvisible]
    exact hs.congr fun i _ _ => ⟨fun hcursor => hvisible hcursor.1, rfl⟩

theorem drawCursor_shows (h : t.Ready)
    (hs : (t.mosaic h).Shows (t.content font) (termColor 0) Set.univ s) :
    (t.mosaic h).Shows (t.picture font) (termColor 0) Set.univ (t.drawCursor s) := by
  unfold drawCursor
  by_cases hvisible : t.cursorVisible = true
  · rw [if_pos hvisible]
    have hbeside : (t.mosaic h).Shows (t.picture font) (termColor 0) { i | i ≠ (t.cursorY, t.cursorX) } s :=
      hs.congr fun i _ hi => ⟨trivial, if_neg fun hcursor => hi hcursor.2⟩
    refine (hbeside.draw h.cursor_mem ⟨fun p hp => ?_, fun p hp => if_neg hp⟩).congr fun i _ _ => ⟨?_, rfl⟩
    · rw [picture, if_pos ⟨hvisible, rfl⟩]
      exact if_pos hp
    · by_cases hi : i = (t.cursorY, t.cursorX)
      · exact .inl hi
      · exact .inr hi
  · rw [if_neg hvisible]
    exact hs.congr fun i _ _ => ⟨trivial, if_neg fun hcursor => hvisible hcursor.1⟩

def Consistent (font : Font) (t : Terminal) (s : Screen) : Prop :=
  ∃ h : t.Ready, ¬(t.fullRefresh = true ∨ t.PositionChanged) →
    (t.mosaic h).Shows (t.saved.picture font) (termColor 0) Set.univ s

theorem termRender_shows (h : t.Ready) (hs : ¬(t.fullRefresh = true ∨ t.PositionChanged) →
    (t.mosaic h).Shows (t.saved.picture font) (termColor 0) Set.univ s) :
    (t.mosaic h).Shows (t.picture font) (termColor 0) Set.univ (t.termRender font s).2 := by
  refine drawCursor_shows h (clearCursor_shows h ?_)
  by_cases hfull : t.fullRefresh = true ∨ t.PositionChanged
  · rw [if_pos hfull]
    exact (redraw_shows font h s).congr fun i _ _ => ⟨trivial, rfl⟩
  · rw [if_neg hfull]
    exact redrawChanged_shows h (hs hfull)

theorem termRender_consistent (hs : Consistent font t s) :
    Consistent font (t.termRender font s).1 (t.termRender font s).2 := by
  obtain ⟨h, hs⟩ := hs
  have hready : (t.termRender font s).1.Ready := { h with last := fun _ => h.cursor_mem }
  refine ⟨hready, fun _ => (termRender_shows h hs).congr fun i hi _ => ⟨trivial, ?_⟩⟩
  obtain ⟨-, hindex⟩ := h.toFits.index hi.1 hi.2
  have hcopied : Cells.Agree (t.prev.copy t.cells t.cellCount) t.cells (t.index i.1 i.2) :=
    Cells.agree_copy _ _ (by rw [cellCount_eq h.toFits]; exact hindex)
  have hcontent : (t.termRender font s).1.saved.content font i = t.content font i :=
    content_of_agree rfl rfl rfl hcopied
  unfold picture
  rw [hcontent]
  rfl

theorem Ready.of_keeps (h : t.Ready) (hkeeps : Keeps t t') (hs : t'.Sound) (hg : t'.OnGrid) : t'.Ready := by
  refine ⟨hs, hg, ?_, fun hvisible => ?_⟩
  · rw [hkeeps.rows, hkeeps.cols]
    exact h.allocated
  · have hlast := h.last (hkeeps.lastCursorVisible ▸ hvisible)
    unfold grid at hlast ⊢
    rwa [hkeeps.rows, hkeeps.cols, hkeeps.lastCursorX, hkeeps.lastCursorY]

theorem picture_of_keeps (hkeeps : Keeps t t') (font : Font) :
    t'.saved.picture font = t.saved.picture font := by
  funext i
  have hagree : Cells.Agree t'.saved.cells t.saved.cells (t.saved.index i.1 i.2) := by
    rw [show t'.saved.cells = t.saved.cells from hkeeps.prev]
    exact ⟨rfl, rfl, rfl⟩
  have hcursor : (t'.saved.cursorVisible = true ∧ i = (t'.saved.cursorY, t'.saved.cursorX)) ↔
      t.saved.cursorVisible = true ∧ i = (t.saved.cursorY, t.saved.cursorX) := by
    simp only [saved, hkeeps.lastCursorVisible, hkeeps.lastCursorX, hkeeps.lastCursorY]
  exact if_congr hcursor rfl (content_of_agree hkeeps.cols hkeeps.contentX hkeeps.contentY hagree)

theorem mosaic_of_keeps (hkeeps : Keeps t t') (h : t.Ready) (h' : t'.Ready) : t'.mosaic h' = t.mosaic h := by
  have htile : t'.tile = t.tile := by
    funext i
    simp only [tile, cellX, cellY, hkeeps.contentX, hkeeps.contentY]
  simp only [mosaic, grid, area, htile, hkeeps.rows, hkeeps.cols, hkeeps.contentX, hkeeps.contentY]

theorem termPutc_consistent (hs : Consistent font t s) {c : UInt8} (hg : (t.termPutc c).OnGrid) :
    Consistent font (t.termPutc c) s := by
  obtain ⟨h, hs⟩ := hs
  obtain ⟨hsound, hkeeps, -⟩ := termPutc_spec h.toSound h.toOnGrid c
  have hready := h.of_keeps hkeeps hsound hg
  refine ⟨hready, fun hpartial => ?_⟩
  rw [mosaic_of_keeps hkeeps h hready, picture_of_keeps hkeeps]
  refine hs fun hfull => hpartial ?_
  unfold PositionChanged at hfull ⊢
  rw [hkeeps.contentX, hkeeps.contentY, hkeeps.lastContentX, hkeeps.lastContentY]
  exact hfull.imp_left hkeeps.fullRefresh

theorem termSetContentPos_consistent (hs : Consistent font t s) (x y : ℤ) :
    Consistent font (t.termSetContentPos x y) s := by
  obtain ⟨h, hs⟩ := hs
  unfold termSetContentPos
  by_cases hmoved : t.contentX ≠ x ∨ t.contentY ≠ y
  · rw [if_pos hmoved]
    exact ⟨{ h with }, fun hpartial => absurd (.inl rfl) hpartial⟩
  · rw [if_neg hmoved]
    obtain ⟨hx, hy⟩ := not_or.mp hmoved
    obtain rfl := not_not.mp hx
    obtain rfl := not_not.mp hy
    exact ⟨h, hs⟩

end Terminal

theorem termCreate_ready (cells prev : Cells) (x y cols rows : ℤ) (hcols : 1 ≤ cols) (hrows : 1 ≤ rows)
    (hallocated : rows * cols ≤ 2 ^ 26) : (termCreate cells prev x y cols rows).Ready ∧
      (termCreate cells prev x y cols rows).fullRefresh = true := by
  obtain ⟨hs, hg, hc, hr, hfull, hlast⟩ := termCreate_spec cells prev x y hcols hrows (by omega)
  refine ⟨⟨hs, hg, ?_, fun hvisible => absurd (hlast.symm.trans hvisible) (by decide)⟩, hfull⟩
  rw [hc, hr]
  exact hallocated

/-- A byte of output, a move of the content, or a rendering. -/
inductive RenderStep
  | putc (c : UInt8)
  | move (x y : ℤ)
  | render

def RenderStep.Step (font : Font) (u : Terminal × Screen) (st : RenderStep) (u' : Terminal × Screen) : Prop :=
  match st with
  | putc c => (u.1.termPutc c).OnGrid ∧ u' = (u.1.termPutc c, u.2)
  | move x y => u' = (u.1.termSetContentPos x y, u.2)
  | render => u' = u.1.termRender font u.2

theorem RenderStep.Step.consistent {font : Font} {u u' : Terminal × Screen} {st : RenderStep}
    (hs : u.1.Consistent font u.2) (h : st.Step font u u') : u'.1.Consistent font u'.2 := by
  cases st with
  | putc c =>
    obtain ⟨hg, rfl⟩ := h
    exact Terminal.termPutc_consistent hs hg
  | move x y =>
    obtain rfl := h
    exact Terminal.termSetContentPos_consistent hs x y
  | render =>
    obtain rfl := h
    exact Terminal.termRender_consistent hs

/-- Incremental rendering and a full redraw give the same pixels of the terminal, in every run that begins
with a full refresh. -/
theorem termRender_eq_redraw {font : Font} {t₀ t : Terminal} {s₀ s : Screen} {steps : List RenderStep}
    (h₀ : t₀.Ready) (hfull : t₀.fullRefresh = true)
    (h : Exec (RenderStep.Step font) (t₀, s₀) steps (t, s)) (back : Screen) :
    let u := t.termRender font s
    Set.EqOn u.2 (u.1.drawCursor (u.1.redraw font back)) u.1.area := by
  have hstart : t₀.Consistent font s₀ := ⟨h₀, fun hpartial => absurd (.inl hfull) hpartial⟩
  obtain ⟨hready, hs⟩ := h.invariant (I := fun u => u.1.Consistent font u.2)
    (fun _ _ _ => RenderStep.Step.consistent) hstart
  have hshows := Terminal.termRender_shows hready hs
  have hredrawn := Terminal.drawCursor_shows hready (Terminal.redraw_shows font hready back)
  exact hshows.eqOn hredrawn fun _ _ => trivial

theorem termRender_eq_redraw_putc :
    let font : Font := fun _ _ _ => true
    let t := (termCreate unwritten unwritten 0 0 60 18).termRender font fun _ => 0
    let u := (t.1.termPutc 97).termRender font t.2
    Set.EqOn u.2 (u.1.drawCursor (u.1.redraw font fun _ => 0)) u.1.area := by
  intro font
  obtain ⟨hready, hfull⟩ := termCreate_ready unwritten unwritten 0 0 60 18 (by decide) (by decide) (by decide)
  have hgrid : (((termCreate unwritten unwritten 0 0 60 18).termRender font fun _ => 0).1.termPutc 97).OnGrid :=
    ⟨by decide +kernel, by decide +kernel, by decide +kernel, by decide +kernel⟩
  generalize termCreate unwritten unwritten 0 0 60 18 = t at *
  have hrender : RenderStep.Step font (t, fun _ => 0) .render (t.termRender font fun _ => 0) := rfl
  have hputc : RenderStep.Step font (t.termRender font fun _ => 0) (.putc 97)
      ((t.termRender font fun _ => 0).1.termPutc 97, (t.termRender font fun _ => 0).2) := ⟨hgrid, rfl⟩
  exact termRender_eq_redraw hready hfull (.cons hrender (.cons hputc (.nil _))) fun _ => 0

end GcAos.Gui.Term
