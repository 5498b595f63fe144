import GcAos.Lib.CInt
import GcAos.Lib.Raster
import Mathlib.Algebra.Ring.Nat
import Mathlib.Order.Interval.Set.Defs

/-! The display of `kernel/gui/window.c`: the parts of the back buffer that get to the frame buffer at the end
of a frame, and the mouse cursor, under which pixels are saved. -/

namespace GcAos.Gui
open Lib

abbrev Pixels := ℕ → BitVec 32

def clipLow (place length : ℤ) : ℤ × ℤ := if place < 0 then (0, toInt (length + place)) else (place, length)

def clipHigh (size : ℕ) (place length : ℤ) : ℤ :=
  if toInt size < toInt (place + length) then toInt (size - place) else length

/-! From the back buffer to the frame buffer. -/

def copyWord (src : Pixels) (a : ℕ) (dst : Pixels) : Pixels :=
  Function.update (Function.update dst a (src a)) (a + 1) (src (a + 1))

def fastMemcpyLine (src dst : Pixels) (a width : ℕ) : Pixels :=
  let dst := (List.range (width / 2)).foldl (fun dst i => copyWord src (a + 2 * i) dst) dst
  if width % 2 = 1 then Function.update dst (a + (width - 1)) (src (a + (width - 1))) else dst

/-- The copy of all `count64` words, eight to a turn and then one to a turn. -/
def copyFrame (src dst : Pixels) (count64 : ℕ) : Pixels :=
  let fastCount := count64 - count64 % 8
  let dst := (List.range (fastCount / 8)).foldl (fun dst k =>
    (List.range 8).foldl (fun dst j => copyWord src (2 * (8 * k + j)) dst) dst) dst
  (List.range' fastCount (count64 - fastCount)).foldl (fun dst i => copyWord src (2 * i) dst) dst

structure DirtyRegion where
  x : ℤ
  y : ℤ
  w : ℤ
  h : ℤ
  x_int : IsInt x := by decide
  y_int : IsInt y := by decide
  w_int : IsInt w := by decide
  h_int : IsInt h := by decide
  deriving DecidableEq

/-- The ends of its sides are `int`s too. -/
structure DirtyRegion.Fits (r : DirtyRegion) : Prop where
  right : IsInt (r.x + r.w)
  bottom : IsInt (r.y + r.h)

/-- The display, with both of its buffers. The index of a pixel is an `int`. -/
structure Screen where
  width : ℕ
  height : ℕ
  pitch : ℕ
  backbuffer : Pixels
  framebuffer : Pixels
  dirtyRegions : List DirtyRegion
  fullRedraw : Bool
  mouseX : ℤ
  mouseY : ℤ
  cursorSavedX : ℤ
  cursorSavedY : ℤ
  cursorSavedPixels : Pixels
  cursorSavedValid : Bool

/-- The static variables at the start. `gui_init` has set the display, and its buffers hold anything. -/
def Screen.init (width height pitch : ℕ) (backbuffer framebuffer : Pixels) : Screen where
  width := width
  height := height
  pitch := pitch
  backbuffer := backbuffer
  framebuffer := framebuffer
  dirtyRegions := []
  fullRedraw := true
  mouseX := 512
  mouseY := 384
  cursorSavedX := 0
  cursorSavedY := 0
  cursorSavedPixels := fun _ => 0
  cursorSavedValid := false

/-- 1 is black, 2 is white, 0 is transparent. -/
def cursorData (row col : ℕ) : ℕ :=
  ([[1, 0, 0, 0, 0, 0, 0, 0, 0, 0, 0, 0], [1, 1, 0, 0, 0, 0, 0, 0, 0, 0, 0, 0],
    [1, 2, 1, 0, 0, 0, 0, 0, 0, 0, 0, 0], [1, 2, 2, 1, 0, 0, 0, 0, 0, 0, 0, 0],
    [1, 2, 2, 2, 1, 0, 0, 0, 0, 0, 0, 0], [1, 2, 2, 2, 2, 1, 0, 0, 0, 0, 0, 0],
    [1, 2, 2, 2, 2, 2, 1, 0, 0, 0, 0, 0], [1, 2, 2, 2, 2, 2, 2, 1, 0, 0, 0, 0],
    [1, 2, 2, 2, 2, 2, 2, 2, 1, 0, 0, 0], [1, 2, 2, 2, 2, 2, 2, 2, 2, 1, 0, 0],
    [1, 2, 2, 2, 2, 2, 2, 2, 2, 2, 1, 0], [1, 2, 2, 2, 2, 2, 2, 1, 1, 1, 1, 1],
    [1, 2, 2, 2, 1, 2, 2, 1, 0, 0, 0, 0], [1, 2, 2, 1, 0, 1, 2, 2, 1, 0, 0, 0],
    [1, 2, 1, 0, 0, 1, 2, 2, 1, 0, 0, 0], [1, 1, 0, 0, 0, 0, 1, 2, 2, 1, 0, 0],
    [1, 0, 0, 0, 0, 0, 1, 2, 2, 1, 0, 0], [0, 0, 0, 0, 0, 0, 0, 1, 2, 1, 0, 0],
    [0, 0, 0, 0, 0, 0, 0, 1, 1, 0, 0, 0]].getD row []).getD col 0

def cursorPixel (c : ℕ × ℕ) (old : BitVec 32) : BitVec 32 :=
  if cursorData c.2 c.1 = 0 then old else if cursorData c.2 c.1 = 1 then 0 else 0x00FFFFFF

namespace Screen

variable (s : Screen)

def pitchPixels : ℕ := s.pitch / 4

def markDirty (r : DirtyRegion) : Screen :=
  if s.dirtyRegions.length < 32 then { s with dirtyRegions := s.dirtyRegions ++ [r] }
  else { s with fullRedraw := true }

def markFullRedraw : Screen := { s with fullRedraw := true, dirtyRegions := [] }

def blitRegion (src dst : Pixels) (r : DirtyRegion) : Pixels :=
  let cols := clipLow r.x r.w
  let rows := clipLow r.y r.h
  let w := clipHigh s.width cols.1 cols.2
  let h := clipHigh s.height rows.1 rows.2
  if w ≤ 0 ∨ h ≤ 0 then dst
  else (List.range' rows.1.toNat (toInt (rows.1 + h) - rows.1).toNat).foldl
    (fun dst row => fastMemcpyLine src dst (row * s.pitchPixels + cols.1.toNat) w.toNat) dst

/-- The cells of the cursor that are on the screen when it is at `x`, `y`. -/
def cursorCells (x y : ℤ) : List (ℕ × ℕ) :=
  (cells 12 19).filter fun c => 0 ≤ toInt (x + c.1) ∧ toInt (x + c.1) < toInt s.width ∧
    0 ≤ toInt (y + c.2) ∧ toInt (y + c.2) < toInt s.height

def cursorPlace (x y : ℤ) (c : ℕ × ℕ) : ℕ :=
  (toInt (y + c.2)).toNat * s.pitchPixels + (toInt (x + c.1)).toNat

def cursorErase : Screen :=
  if s.cursorSavedValid then
    { s with
      framebuffer := (s.cursorCells s.cursorSavedX s.cursorSavedY).foldl (fun m c => Function.update m
        (s.cursorPlace s.cursorSavedX s.cursorSavedY c) (s.cursorSavedPixels (c.2 * 12 + c.1))) s.framebuffer
      cursorSavedValid := false }
  else s

def drawCursor : Screen :=
  let r := (s.cursorCells s.mouseX s.mouseY).foldl
    (saveStore (s.cursorPlace s.mouseX s.mouseY) (fun c => c.2 * 12 + c.1) cursorPixel)
    (s.cursorSavedPixels, s.framebuffer)
  { s with
    framebuffer := r.2
    cursorSavedX := s.mouseX
    cursorSavedY := s.mouseY
    cursorSavedPixels := r.1
    cursorSavedValid := true }

def refreshCursor : Screen := s.cursorErase.drawCursor

/-- Everything when a full redraw is due, or else the regions. The product has 32 bits. -/
def copyDirty : Screen :=
  if s.fullRedraw then
    { s with
      framebuffer := copyFrame s.backbuffer s.framebuffer (s.pitch * s.height % 2 ^ 32 / 8)
      fullRedraw := false }
  else { s with framebuffer := s.dirtyRegions.foldl (s.blitRegion s.backbuffer) s.framebuffer }

/-- The end of `gui_compose`. -/
def present : Screen := { s.cursorErase.copyDirty.drawCursor with dirtyRegions := [] }

end Screen

/-- What happens between the ends of two frames. -/
inductive ScreenOp
  -- a pixel of the back buffer is drawn
  | drawPixel (px py : ℕ) (color : BitVec 32)
  | markDirty (r : DirtyRegion)
  | markFullRedraw
  | moveMouse (x y : ℤ)
  | refreshCursor
  deriving DecidableEq

def Screen.step (s : Screen) : ScreenOp → Screen
  | .drawPixel px py color =>
    if px < s.width ∧ py < s.height then
      { s with backbuffer := Function.update s.backbuffer (py * s.pitchPixels + px) color }
    else s
  | .markDirty r => s.markDirty r
  | .markFullRedraw => s.markFullRedraw
  | .moveMouse x y => { s with mouseX := toInt x, mouseY := toInt y }
  | .refreshCursor => s.refreshCursor

/-! Copies. -/

theorem clip_iff {size : ℕ} {place length : ℤ} (hsize : size < 2 ^ 31) (hplace : IsInt place)
    (hend : IsInt (place + length)) :
    0 ≤ (clipLow place length).1 ∧
    (clipLow place length).1 + clipHigh size (clipLow place length).1 (clipLow place length).2 ≤ size ∧
    ∀ i : ℤ, 0 ≤ i → i < size → (place ≤ i ∧ i < place + length ↔ (clipLow place length).1 ≤ i ∧
      i < (clipLow place length).1 + clipHigh size (clipLow place length).1 (clipLow place length).2) := by
  have hsize' : toInt size = size := toInt_natCast hsize
  obtain ⟨hlow, hhigh⟩ := hplace
  unfold clipLow clipHigh
  by_cases hneg : place < 0
  · rw [Int.add_comm] at hend
    simp only [if_pos hneg, toInt_of_isInt hend, Int.zero_add, Int.sub_zero, hsize']
    split_ifs <;> exact ⟨by omega, by omega, fun i hi hlt => by omega⟩
  · have hrest : toInt (size - place) = size - place := toInt_of_isInt ⟨by omega, by omega⟩
    simp only [if_neg hneg, toInt_of_isInt hend, hsize', hrest]
    split_ifs <;> exact ⟨by omega, by omega, fun i hi hlt => by omega⟩

variable {src dst : Pixels} {a b width : ℕ}

theorem copyWord_copies (src dst : Pixels) (a : ℕ) :
    Copies (Set.Ico a (a + 2)) src dst (copyWord src a dst) := by
  have hset : Set.Ico a (a + 2) = {a} ∪ {a + 1} := by
    ext b
    simp only [Set.mem_Ico, Set.mem_union, Set.mem_singleton_iff]
    omega
  rw [hset]
  exact (Copies.update a).trans (Copies.update (a + 1))

theorem fastMemcpyLine_copies (src dst : Pixels) (a width : ℕ) :
    Copies (Set.Ico a (a + width)) src dst (fastMemcpyLine src dst a width) := by
  have hwords := Copies.foldl dst (l := List.range (width / 2))
    fun i _ d => copyWord_copies src d (a + 2 * i)
  unfold fastMemcpyLine
  split_ifs with hodd
  · have hset : Set.Ico a (a + width) =
        {b | ∃ i ∈ List.range (width / 2), b ∈ Set.Ico (a + 2 * i) (a + 2 * i + 2)} ∪ {a + (width - 1)} := by
      ext b
      simp only [Set.mem_Ico, Set.mem_union, Set.mem_ofPred_eq, List.mem_range, Set.mem_singleton_iff]
      refine ⟨fun h => ?_, ?_⟩
      · by_cases hlast : b = a + (width - 1)
        · exact .inr hlast
        · exact .inl ⟨(b - a) / 2, by omega, by omega, by omega⟩
      · rintro (⟨i, hi, h⟩ | h)
        · omega
        · omega
    rw [hset]
    exact hwords.trans (Copies.update _)
  · have hset : Set.Ico a (a + width) =
        {b | ∃ i ∈ List.range (width / 2), b ∈ Set.Ico (a + 2 * i) (a + 2 * i + 2)} := by
      ext b
      simp only [Set.mem_Ico, Set.mem_ofPred_eq, List.mem_range]
      refine ⟨fun h => ⟨(b - a) / 2, by omega, by omega, by omega⟩, ?_⟩
      rintro ⟨i, hi, h⟩
      omega
    rw [hset]
    exact hwords

theorem copyFrame_copies {count64 : ℕ} :
    Copies (Set.Iio (2 * count64)) src dst (copyFrame src dst count64) := by
  have hturn := fun k d => Copies.foldl d (l := List.range 8)
    fun j _ d => copyWord_copies src d (2 * (8 * k + j))
  have hfast := Copies.foldl dst (l := List.range ((count64 - count64 % 8) / 8)) fun k _ d => hturn k d
  have hset : Set.Iio (2 * count64) =
      {b | ∃ k ∈ List.range ((count64 - count64 % 8) / 8),
        b ∈ {b | ∃ j ∈ List.range 8, b ∈ Set.Ico (2 * (8 * k + j)) (2 * (8 * k + j) + 2)}} ∪
      {b | ∃ i ∈ List.range' (count64 - count64 % 8) (count64 - (count64 - count64 % 8)),
        b ∈ Set.Ico (2 * i) (2 * i + 2)} := by
    ext b
    simp only [Set.mem_Iio, Set.mem_union, Set.mem_ofPred_eq, List.mem_range, List.mem_range'_1, Set.mem_Ico]
    constructor
    · intro h
      by_cases hb : b / 2 < count64 - count64 % 8
      · exact .inl ⟨b / 16, by omega, b / 2 % 8, by omega, by omega, by omega⟩
      · exact .inr ⟨b / 2, by omega, by omega, by omega⟩
    · rintro (⟨k, hk, j, hj, h⟩ | ⟨i, hi, h⟩)
      · omega
      · omega
  rw [hset]
  exact hfast.trans (Copies.foldl _ fun i _ d => copyWord_copies src d (2 * i))

def DirtyRegion.Has (r : DirtyRegion) (px py : ℕ) : Prop :=
  r.x ≤ px ∧ px < r.x + r.w ∧ r.y ≤ py ∧ py < r.y + r.h

namespace Screen

variable {s t : Screen} {r : DirtyRegion} {x y : ℤ} {px py : ℕ}

/-- Displays on which the index of a pixel is an `int`, and whose full copy comes to the last pixel. Where the
number of pixels is odd there has to be room behind it. -/
structure Fits (s : Screen) : Prop where
  row : s.width ≤ s.pitchPixels
  width_lt : s.width < 2 ^ 31
  height_lt : s.height < 2 ^ 31
  pixels : s.height * s.pitchPixels < 2 ^ 31
  last : (s.height - 1) * s.pitchPixels + s.width ≤ 2 * (s.pitch * s.height % 2 ^ 32 / 8)

theorem Fits.congr (h : s.Fits) (hw : t.width = s.width) (hh : t.height = s.height) (hp : t.pitch = s.pitch) :
    t.Fits := by
  have hp' : t.pitchPixels = s.pitchPixels := by rw [pitchPixels, hp]; rfl
  exact ⟨by rw [hw, hp']; exact h.row, by rw [hw]; exact h.width_lt, by rw [hh]; exact h.height_lt,
    by rw [hh, hp']; exact h.pixels, by rw [hw, hh, hp, hp']; exact h.last⟩

theorem blitRegion_copies (hfit : s.Fits) (src dst : Pixels) (hr : r.Fits) :
    Copies {b | ∃ px py, px < s.width ∧ py < s.height ∧ r.Has px py ∧ b = py * s.pitchPixels + px} src dst
      (s.blitRegion src dst r) := by
  obtain ⟨hx, hw, hcols⟩ := clip_iff hfit.width_lt r.x_int hr.right
  obtain ⟨hy, hh, hrows⟩ := clip_iff hfit.height_lt r.y_int hr.bottom
  have hheight := hfit.height_lt
  unfold blitRegion
  simp only
  generalize clipLow r.x r.w = cols at *
  generalize clipLow r.y r.h = rows at *
  generalize clipHigh s.width cols.1 cols.2 = w at *
  generalize clipHigh s.height rows.1 rows.2 = h at *
  split_ifs with hempty
  · refine .refl ?_
    rintro _ ⟨px, py, hpx, hpy, ⟨h₁, h₂, h₃, h₄⟩, rfl⟩
    have := (hcols px (by omega) (by omega)).mp ⟨h₁, h₂⟩
    have := (hrows py (by omega) (by omega)).mp ⟨h₃, h₄⟩
    omega
  · rw [toInt_of_isInt (v := rows.1 + h) ⟨by omega, by omega⟩]
    have hlines := Copies.foldl dst (l := List.range' rows.1.toNat (rows.1 + h - rows.1).toNat) fun row _ d =>
      fastMemcpyLine_copies src d (row * s.pitchPixels + cols.1.toNat) w.toNat
    have hset : {b | ∃ px py, px < s.width ∧ py < s.height ∧ r.Has px py ∧ b = py * s.pitchPixels + px} =
        {b | ∃ row ∈ List.range' rows.1.toNat (rows.1 + h - rows.1).toNat, b ∈ Set.Ico
          (row * s.pitchPixels + cols.1.toNat) (row * s.pitchPixels + cols.1.toNat + w.toNat)} := by
      ext b
      simp only [Set.mem_ofPred_eq, List.mem_range'_1, Set.mem_Ico]
      constructor
      · rintro ⟨px, py, hpx, hpy, ⟨h₁, h₂, h₃, h₄⟩, rfl⟩
        have := (hcols px (by omega) (by omega)).mp ⟨h₁, h₂⟩
        have := (hrows py (by omega) (by omega)).mp ⟨h₃, h₄⟩
        exact ⟨py, by omega, by omega, by omega⟩
      · rintro ⟨py, hpy, hpx⟩
        have hpx' := (hcols (b - py * s.pitchPixels : ℕ) (by omega) (by omega)).mpr (by omega)
        have hpy' := (hrows py (by omega) (by omega)).mpr (by omega)
        exact ⟨b - py * s.pitchPixels, py, by omega, by omega, ⟨hpx'.1, hpx'.2, hpy'.1, hpy'.2⟩, by omega⟩
    rw [hset]
    exact hlines

/-! The cursor. -/

/-- What a pixel looks like with the cursor at `x`, `y` over it. -/
def overlay (x y : ℤ) (px py : ℕ) (old : BitVec 32) : BitVec 32 :=
  if x ≤ px ∧ px < x + 12 ∧ y ≤ py ∧ py < y + 19 then cursorPixel ((px - x).toNat, (py - y).toNat) old else old

def scene (s : Screen) : Pixels := s.cursorErase.framebuffer

theorem mem_cursorCells (hfit : s.Fits) {c : ℕ × ℕ} :
    c ∈ s.cursorCells x y ↔ (c.1 < 12 ∧ c.2 < 19) ∧ 0 ≤ toInt (x + c.1) ∧ toInt (x + c.1) < s.width ∧
      0 ≤ toInt (y + c.2) ∧ toInt (y + c.2) < s.height := by
  rw [cursorCells, List.mem_filter, mem_cells, decide_eq_true_iff, toInt_natCast hfit.width_lt,
    toInt_natCast hfit.height_lt]

theorem cursorPlace_inj (hfit : s.Fits) {c d : ℕ × ℕ} (hc : c ∈ s.cursorCells x y)
    (hd : d ∈ s.cursorCells x y) (h : s.cursorPlace x y c = s.cursorPlace x y d) : c = d := by
  have hrow : s.width ≤ s.pitchPixels := hfit.row
  obtain ⟨⟨hc₁, hc₂⟩, hc₃, hc₄, hc₅, hc₆⟩ := (mem_cursorCells hfit).mp hc
  obtain ⟨⟨hd₁, hd₂⟩, hd₃, hd₄, hd₅, hd₆⟩ := (mem_cursorCells hfit).mp hd
  obtain ⟨hx, hy⟩ := (rowMajor_inj (by omega) (by omega)).mp h
  obtain ⟨k, hk⟩ := exists_toInt (x + c.1)
  obtain ⟨k', hk'⟩ := exists_toInt (x + d.1)
  obtain ⟨l, hl⟩ := exists_toInt (y + c.2)
  obtain ⟨l', hl'⟩ := exists_toInt (y + d.2)
  exact Prod.ext (by omega) (by omega)

theorem toInt_add {n i : ℕ} {v : ℤ} (hv : IsInt v) (hi : i < n) (hnonneg : 0 ≤ toInt (v + i))
    (hn : n ≤ 2 ^ 31 := by decide) : toInt (v + i) = v + i := by
  obtain ⟨hlow, hhigh⟩ := hv
  obtain ⟨k, hk⟩ := exists_toInt (v + i)
  obtain ⟨hlow', hhigh'⟩ := isInt_toInt (v + i)
  omega

theorem drawCursor_eq (hfit : s.Fits) :
    s.drawCursor.cursorSavedPixels = (s.cursorCells s.mouseX s.mouseY).foldl (fun m c => Function.update m
      (c.2 * 12 + c.1) (s.framebuffer (s.cursorPlace s.mouseX s.mouseY c))) s.cursorSavedPixels ∧
    s.drawCursor.framebuffer = (s.cursorCells s.mouseX s.mouseY).foldl (fun m c =>
      Function.update m (s.cursorPlace s.mouseX s.mouseY c)
        (cursorPixel c (s.framebuffer (s.cursorPlace s.mouseX s.mouseY c)))) s.framebuffer := by
  have hsave := foldl_saveStore (l := s.cursorCells s.mouseX s.mouseY) (f := s.cursorPlace s.mouseX s.mouseY)
    (fun c hc d hd => cursorPlace_inj hfit hc hd) ((nodup_cells 12 19).filter _) (fun c => c.2 * 12 + c.1)
    cursorPixel s.cursorSavedPixels s.framebuffer
  unfold drawCursor
  simp only [hsave, and_self]

theorem drawCursor_scene (hfit : s.Fits) : s.drawCursor.scene = s.framebuffer := by
  obtain ⟨hsaved, hframe⟩ := drawCursor_eq hfit
  have hvalid : s.drawCursor.cursorErase = { s.drawCursor with
      framebuffer := (s.cursorCells s.mouseX s.mouseY).foldl (fun m c => Function.update m
        (s.cursorPlace s.mouseX s.mouseY c) (s.drawCursor.cursorSavedPixels (c.2 * 12 + c.1)))
        s.drawCursor.framebuffer
      cursorSavedValid := false } := if_pos rfl
  rw [scene, hvalid]
  funext a
  dsimp only
  by_cases ha : ∃ c ∈ s.cursorCells s.mouseX s.mouseY, s.cursorPlace s.mouseX s.mouseY c = a
  · refine foldl_update_of_or (.inl ha) fun c hc hplace => ?_
    rw [hsaved, ← hplace]
    refine foldl_update_of_or (.inl ⟨c, hc, rfl⟩) fun d hd hkey => ?_
    obtain ⟨⟨hc₁, -⟩, -⟩ := (mem_cursorCells hfit).mp hc
    obtain ⟨⟨hd₁, -⟩, -⟩ := (mem_cursorCells hfit).mp hd
    obtain ⟨hcol, hrow⟩ := (rowMajor_inj hd₁ hc₁).mp hkey
    rw [Prod.ext hcol hrow]
  · have hnot : ∀ c ∈ s.cursorCells s.mouseX s.mouseY, a ≠ s.cursorPlace s.mouseX s.mouseY c :=
      fun c hc h => ha ⟨c, hc, h.symm⟩
    rw [foldl_update_of_ne hnot, hframe, foldl_update_of_ne hnot]

theorem drawCursor_framebuffer (hfit : s.Fits) (hmouse : IsInt s.mouseX ∧ IsInt s.mouseY)
    (hpx : px < s.width) (hpy : py < s.height) :
    s.drawCursor.framebuffer (py * s.pitchPixels + px) =
      overlay s.mouseX s.mouseY px py (s.framebuffer (py * s.pitchPixels + px)) := by
  have hwidth := hfit.width_lt
  have hheight := hfit.height_lt
  have hrow : s.width ≤ s.pitchPixels := hfit.row
  rw [(drawCursor_eq hfit).2, overlay]
  split_ifs with hover
  · obtain ⟨h₁, h₂, h₃, h₄⟩ := hover
    set c : ℕ × ℕ := ((px - s.mouseX).toNat, (py - s.mouseY).toNat)
    have hcol : (c.1 : ℤ) = px - s.mouseX := Int.toNat_of_nonneg (by omega)
    have hline : (c.2 : ℤ) = py - s.mouseY := Int.toNat_of_nonneg (by omega)
    have hx : toInt (s.mouseX + c.1) = px := by
      rw [hcol, add_sub_cancel]
      exact toInt_natCast (by omega)
    have hy : toInt (s.mouseY + c.2) = py := by
      rw [hline, add_sub_cancel]
      exact toInt_natCast (by omega)
    have hplace : s.cursorPlace s.mouseX s.mouseY c = py * s.pitchPixels + px := by
      rw [cursorPlace, hx, hy, Int.toNat_natCast, Int.toNat_natCast]
    have hmem : c ∈ s.cursorCells s.mouseX s.mouseY := by
      rw [mem_cursorCells hfit, hx, hy]
      omega
    rw [← hplace]
    exact foldl_update_of_or (.inl ⟨c, hmem, rfl⟩) fun d hd h => by rw [cursorPlace_inj hfit hd hmem h]
  · refine foldl_update_of_ne fun c hc h => hover ?_
    obtain ⟨⟨hc₁, hc₂⟩, hc₃, hc₄, hc₅, hc₆⟩ := (mem_cursorCells hfit).mp hc
    obtain ⟨hcol, hrow⟩ := (rowMajor_inj (by omega) (by omega)).mp h
    have hx := toInt_add hmouse.1 (show c.1 < 12 by omega) hc₃
    have hy := toInt_add hmouse.2 (show c.2 < 19 by omega) hc₅
    omega

/-! Frames. -/

variable {op : ScreenOp} {ops : List ScreenOp}

structure Kept (s t : Screen) : Prop where
  width : t.width = s.width
  height : t.height = s.height
  pitch : t.pitch = s.pitch
  scene : t.scene = s.scene
  mouse : IsInt s.mouseX ∧ IsInt s.mouseY → IsInt t.mouseX ∧ IsInt t.mouseY

theorem cursorErase_dims (s : Screen) : s.cursorErase.width = s.width ∧ s.cursorErase.height = s.height ∧
    s.cursorErase.pitch = s.pitch ∧ s.cursorErase.backbuffer = s.backbuffer ∧
    s.cursorErase.dirtyRegions = s.dirtyRegions ∧ s.cursorErase.fullRedraw = s.fullRedraw ∧
    s.cursorErase.mouseX = s.mouseX ∧ s.cursorErase.mouseY = s.mouseY := by
  unfold cursorErase
  split_ifs <;> simp

theorem Fits.cursorErase (hfit : s.Fits) : s.cursorErase.Fits := by
  obtain ⟨hw, hh, hp, -⟩ := s.cursorErase_dims
  exact hfit.congr hw hh hp

theorem Kept.refl (s : Screen) : s.Kept s := ⟨rfl, rfl, rfl, rfl, id⟩

theorem step_kept (hfit : s.Fits) (op : ScreenOp) : s.Kept (s.step op) := by
  obtain ⟨hw, hh, hp, -, -, -, hx, hy⟩ := s.cursorErase_dims
  cases op with
  | drawPixel px py color =>
    simp only [step]
    split_ifs
    · refine ⟨rfl, rfl, rfl, ?_, id⟩
      unfold scene cursorErase
      split_ifs <;> rfl
    · exact .refl s
  | markDirty r =>
    simp only [step, markDirty]
    split_ifs
    · refine ⟨rfl, rfl, rfl, ?_, id⟩
      unfold scene cursorErase
      split_ifs <;> rfl
    · refine ⟨rfl, rfl, rfl, ?_, id⟩
      unfold scene cursorErase
      split_ifs <;> rfl
  | markFullRedraw =>
    refine ⟨rfl, rfl, rfl, ?_, id⟩
    unfold step markFullRedraw scene cursorErase
    split_ifs <;> rfl
  | moveMouse x y =>
    refine ⟨rfl, rfl, rfl, ?_, fun _ => ⟨isInt_toInt x, isInt_toInt y⟩⟩
    unfold step scene cursorErase
    split_ifs <;> rfl
  | refreshCursor =>
    refine ⟨hw, hh, hp, drawCursor_scene hfit.cursorErase, fun h => ?_⟩
    show IsInt s.cursorErase.mouseX ∧ IsInt s.cursorErase.mouseY
    rwa [hx, hy]

theorem steps_kept (hfit : s.Fits) (ops : List ScreenOp) : s.Kept (ops.foldl step s) := by
  induction ops generalizing s with
  | nil => exact .refl s
  | cons op ops ih =>
    have h := step_kept hfit op
    have h' := ih (hfit.congr h.width h.height h.pitch)
    exact ⟨h'.width.trans h.width, h'.height.trans h.height, h'.pitch.trans h.pitch, h'.scene.trans h.scene,
      fun hmouse => h'.mouse (h.mouse hmouse)⟩

/-- A full redraw that is due stays due, and a region that is marked stays marked or makes one due. -/
theorem step_marks (s : Screen) (op : ScreenOp) :
    (s.fullRedraw = true ∨ op = .markFullRedraw → (s.step op).fullRedraw = true) ∧
    (∀ r, r ∈ s.dirtyRegions ∨ op = .markDirty r →
      (s.step op).fullRedraw = true ∨ r ∈ (s.step op).dirtyRegions) ∧
    ∀ r ∈ (s.step op).dirtyRegions, r ∈ s.dirtyRegions ∨ op = .markDirty r := by
  obtain ⟨-, -, -, -, hdirty, hfull, -⟩ := s.cursorErase_dims
  cases op with
  | drawPixel px py color =>
    simp only [step]
    split_ifs <;> simp +contextual
  | markDirty r =>
    simp only [step, markDirty]
    split_ifs
    · refine ⟨fun h => h.resolve_right (by simp), fun r' h => .inr (List.mem_append.mpr ?_), fun r' h => ?_⟩
      · exact h.imp_right fun h => by simpa using h.symm
      · exact (List.mem_append.mp h).imp_right fun h => by rw [List.mem_singleton.mp h]
    · exact ⟨fun _ => rfl, fun _ _ => .inl rfl, fun _ h => .inl h⟩
  | markFullRedraw => simp [step, markFullRedraw]
  | moveMouse x y => simp +contextual [step]
  | refreshCursor => simp +contextual [step, refreshCursor, drawCursor, hdirty, hfull]

theorem steps_marks (s : Screen) (ops : List ScreenOp) :
    (s.fullRedraw = true ∨ .markFullRedraw ∈ ops → (ops.foldl step s).fullRedraw = true) ∧
    (∀ r, r ∈ s.dirtyRegions ∨ .markDirty r ∈ ops →
      (ops.foldl step s).fullRedraw = true ∨ r ∈ (ops.foldl step s).dirtyRegions) ∧
    ∀ r ∈ (ops.foldl step s).dirtyRegions, r ∈ s.dirtyRegions ∨ .markDirty r ∈ ops := by
  induction ops generalizing s with
  | nil => simp +contextual
  | cons op ops ih =>
    obtain ⟨hfull, hdirty, honly⟩ := step_marks s op
    obtain ⟨hfull', hdirty', honly'⟩ := ih (s.step op)
    rw [List.foldl_cons]
    refine ⟨fun h => ?_, fun r h => ?_, fun r h => ?_⟩
    · obtain h | h := h
      · exact hfull' (.inl (hfull (.inl h)))
      · obtain h | h := List.mem_cons.mp h
        · exact hfull' (.inl (hfull (.inr h.symm)))
        · exact hfull' (.inr h)
    · have hnow : (r ∈ s.dirtyRegions ∨ op = .markDirty r) ∨ .markDirty r ∈ ops := by
        obtain h | h := h
        · exact .inl (.inl h)
        · exact (List.mem_cons.mp h).imp (fun h => .inr h.symm) id
      obtain h | h := hnow
      · obtain h | h := hdirty r h
        · exact .inl (hfull' (.inl h))
        · exact hdirty' r (.inl h)
      · exact hdirty' r (.inr h)
    · obtain h | h := honly' r h
      · exact (honly r h).imp_right fun h => List.mem_cons.mpr (.inl h.symm)
      · exact .inr (List.mem_cons_of_mem op h)

/-- What the back buffer and the screen differ in is marked, or a full redraw is due. -/
theorem copyDirty_shows (hfit : s.Fits) (hregions : ∀ r ∈ s.dirtyRegions, r.Fits) (hpx : px < s.width)
    (hpy : py < s.height)
    (h : s.fullRedraw = true ∨ (∃ r ∈ s.dirtyRegions, r.Has px py) ∨
      s.framebuffer (py * s.pitchPixels + px) = s.backbuffer (py * s.pitchPixels + px)) :
    s.copyDirty.framebuffer (py * s.pitchPixels + px) = s.backbuffer (py * s.pitchPixels + px) := by
  unfold copyDirty
  split_ifs with hfull
  · refine copyFrame_copies.inside _ ?_
    have hrow : py * s.pitchPixels ≤ (s.height - 1) * s.pitchPixels := Nat.mul_le_mul_right _ (by omega)
    exact Nat.lt_of_lt_of_le (by omega) hfit.last
  · refine (Copies.foldl _ fun r hr d => blitRegion_copies hfit s.backbuffer d (hregions r hr)).eq_src ?_
    exact (h.resolve_left hfull).imp_left fun ⟨r, hr, hhas⟩ => ⟨r, hr, px, py, hpx, hpy, hhas, rfl⟩

theorem copyDirty_kept (s : Screen) : s.copyDirty.width = s.width ∧ s.copyDirty.height = s.height ∧
    s.copyDirty.pitch = s.pitch ∧ s.copyDirty.backbuffer = s.backbuffer ∧ s.copyDirty.mouseX = s.mouseX ∧
    s.copyDirty.mouseY = s.mouseY := by
  unfold copyDirty
  split_ifs <;> simp

def Shown (s : Screen) : Prop := ∀ px < s.width, ∀ py < s.height,
  s.scene (py * s.pitchPixels + px) = s.backbuffer (py * s.pitchPixels + px)

structure Alike (s t : Screen) : Prop where
  width : t.width = s.width
  height : t.height = s.height
  pitch : t.pitch = s.pitch
  backbuffer : t.backbuffer = s.backbuffer
  mouseX : t.mouseX = s.mouseX
  mouseY : t.mouseY = s.mouseY

theorem copyDirty_alike (s : Screen) : s.Alike s.cursorErase.copyDirty := by
  obtain ⟨hw, hh, hp, hb, -, -, hx, hy⟩ := s.cursorErase_dims
  obtain ⟨hw', hh', hp', hb', hx', hy'⟩ := s.cursorErase.copyDirty_kept
  exact ⟨hw'.trans hw, hh'.trans hh, hp'.trans hp, hb'.trans hb, hx'.trans hx, hy'.trans hy⟩

theorem present_alike (s : Screen) : s.Alike s.present := by
  obtain ⟨hw, hh, hp, hb, hx, hy⟩ := s.copyDirty_alike
  exact ⟨hw, hh, hp, hb, hx, hy⟩

/-- A frame ends with the back buffer on the screen and the cursor over it, when all they differ in is
marked. -/
theorem present_shows (hfit : s.Fits) (hmouse : IsInt s.mouseX ∧ IsInt s.mouseY)
    (hregions : ∀ r ∈ s.dirtyRegions, r.Fits)
    (h : s.fullRedraw = true ∨ ∀ px < s.width, ∀ py < s.height, (∃ r ∈ s.dirtyRegions, r.Has px py) ∨
      s.scene (py * s.pitchPixels + px) = s.backbuffer (py * s.pitchPixels + px)) :
    s.present.Shown ∧ ∀ px < s.width, ∀ py < s.height, s.present.framebuffer (py * s.pitchPixels + px) =
      overlay s.mouseX s.mouseY px py (s.backbuffer (py * s.pitchPixels + px)) := by
  obtain ⟨hw, hh, hp, hb, hd, hf, -, -⟩ := s.cursorErase_dims
  have halike := s.copyDirty_alike
  have hfit' := hfit.congr halike.width halike.height halike.pitch
  have hpitch : s.cursorErase.copyDirty.pitchPixels = s.pitchPixels := congrArg (· / 4) halike.pitch
  have herase : s.cursorErase.pitchPixels = s.pitchPixels := congrArg (· / 4) hp
  have hcopied : ∀ px < s.width, ∀ py < s.height,
      s.cursorErase.copyDirty.framebuffer (py * s.pitchPixels + px) = s.backbuffer (py * s.pitchPixels + px) := by
    intro px hpx py hpy
    rw [← herase, ← hb]
    refine copyDirty_shows hfit.cursorErase (by rw [hd]; exact hregions) (by rw [hw]; exact hpx)
      (by rw [hh]; exact hpy) ?_
    rw [hf, hd, herase, hb]
    exact h.imp_right fun h => h px hpx py hpy
  have hscene : s.present.scene = s.cursorErase.copyDirty.framebuffer := drawCursor_scene hfit'
  refine ⟨fun px hpx py hpy => ?_, fun px hpx py hpy => ?_⟩
  · have hpresent : s.present.pitchPixels = s.pitchPixels := hpitch
    rw [hscene, hpresent, s.present_alike.backbuffer]
    exact hcopied px (by rw [← halike.width]; exact hpx) py (by rw [← halike.height]; exact hpy)
  · have hframe := @drawCursor_framebuffer _ px py hfit'
      (by rw [halike.mouseX, halike.mouseY]; exact hmouse) (by rw [halike.width]; exact hpx)
      (by rw [halike.height]; exact hpy)
    rw [hpitch, halike.mouseX, halike.mouseY, hcopied px hpx py hpy] at hframe
    exact hframe

/-- The regions that are marked fit. A full redraw is asked for, or all that the operations change of the back
buffer is marked. -/
def Marked (s : Screen) (ops : List ScreenOp) : Prop :=
  (∀ r, .markDirty r ∈ ops → r.Fits) ∧
  (.markFullRedraw ∈ ops ∨ ∀ px < s.width, ∀ py < s.height,
    (ops.foldl step s).backbuffer (py * s.pitchPixels + px) ≠ s.backbuffer (py * s.pitchPixels + px) →
      ∃ r, .markDirty r ∈ ops ∧ r.Has px py)

inductive Frames : Screen → Screen → Prop
  | refl (s : Screen) : Frames s s
  | frame {s t : Screen} {ops : List ScreenOp} (hframes : Frames s t) (hmarked : t.Marked ops) :
    Frames s (ops.foldl step t).present

structure Framed (s t : Screen) : Prop where
  width : t.width = s.width
  height : t.height = s.height
  pitch : t.pitch = s.pitch
  clean : t.dirtyRegions = []
  mouse : IsInt t.mouseX ∧ IsInt t.mouseY
  shown : t.fullRedraw = true ∨ t.Shown

theorem Framed.present (hfit : s.Fits) (h : s.Framed t) (hmarked : t.Marked ops) :
    (ops.foldl step t).present.Shown ∧ ∀ px < s.width, ∀ py < s.height,
      (ops.foldl step t).present.framebuffer (py * s.pitchPixels + px) =
        overlay (ops.foldl step t).mouseX (ops.foldl step t).mouseY px py
          ((ops.foldl step t).backbuffer (py * s.pitchPixels + px)) := by
  have hkept := steps_kept (hfit.congr h.width h.height h.pitch) ops
  obtain ⟨hfull, hdirty, honly⟩ := steps_marks t ops
  have hw := hkept.width.trans h.width
  have hh := hkept.height.trans h.height
  have hp := hkept.pitch.trans h.pitch
  have hpitch : (ops.foldl step t).pitchPixels = s.pitchPixels := congrArg (· / 4) hp
  have hpitch' : t.pitchPixels = s.pitchPixels := congrArg (· / 4) h.pitch
  rw [← hw, ← hh, ← hpitch]
  refine present_shows (hfit.congr hw hh hp) (hkept.mouse h.mouse) (fun r hr => hmarked.1 r ?_)
    (or_iff_not_imp_left.mpr fun hnot => ?_)
  · exact (honly r hr).resolve_left (by rw [h.clean]; exact List.not_mem_nil)
  intro px hpx py hpy
  have hshown := h.shown.resolve_left fun h => hnot (hfull (.inl h))
  have hregion := hmarked.2.resolve_left fun h => hnot (hfull (.inr h))
  rw [hkept.scene]
  rw [hkept.width] at hpx
  rw [hkept.height] at hpy
  rw [hpitch, ← hpitch', hshown px hpx py hpy]
  by_cases hsame : (ops.foldl step t).backbuffer (py * t.pitchPixels + px) = t.backbuffer (py * t.pitchPixels + px)
  · exact .inr hsame.symm
  · obtain ⟨r, hr, hhas⟩ := hregion px hpx py hpy hsame
    exact .inl ⟨r, (hdirty r (.inr hr)).resolve_left hnot, hhas⟩

theorem Frames.framed {width height pitch : ℕ} {back front : Pixels}
    (hfit : (init width height pitch back front).Fits)
    (h : Frames (init width height pitch back front) t) : (init width height pitch back front).Framed t := by
  generalize hs : init width height pitch back front = s at h hfit
  induction h with
  | refl =>
    subst hs
    exact ⟨rfl, rfl, rfl, rfl, ⟨show IsInt 512 by decide, show IsInt 384 by decide⟩, .inl rfl⟩
  | @frame t ops hframes hmarked ih =>
    have hkept := steps_kept (hfit.congr ih.width ih.height ih.pitch) ops
    have halike := (ops.foldl step t).present_alike
    refine ⟨(halike.width.trans hkept.width).trans ih.width, (halike.height.trans hkept.height).trans ih.height,
      (halike.pitch.trans hkept.pitch).trans ih.pitch, rfl, ?_, .inr (ih.present hfit hmarked).1⟩
    rw [halike.mouseX, halike.mouseY]
    exact hkept.mouse ih.mouse

/-- After every frame the back buffer is on the screen, and the cursor over it at the place of the mouse:
nothing is left of it where it was. -/
theorem frames_show {width height pitch : ℕ} {back front : Pixels}
    (hfit : (init width height pitch back front).Fits)
    (hframes : Frames (init width height pitch back front) t) (hmarked : t.Marked ops) (hpx : px < width)
    (hpy : py < height) :
    (ops.foldl step t).present.framebuffer (py * (pitch / 4) + px) =
      overlay (ops.foldl step t).mouseX (ops.foldl step t).mouseY px py
        ((ops.foldl step t).backbuffer (py * (pitch / 4) + px)) :=
  ((hframes.framed hfit).present hfit hmarked).2 px hpx py hpy

theorem frames_show_dirty :
    ([ScreenOp.drawPixel 1 0 7, .markDirty (.mk 1 (-1) 5 2)].foldl step
      (init 2 1 8 (fun _ => 0) fun _ => 0).present).present.framebuffer (0 * (8 / 4) + 1) = 7 := by
  have hfirst : Frames (init 2 1 8 (fun _ => 0) fun _ => 0) (init 2 1 8 (fun _ => 0) fun _ => 0).present :=
    @Frames.frame _ _ [] (.refl _) ⟨by simp, .inr fun _ _ _ _ h => absurd rfl h⟩
  refine frames_show ⟨by decide, by decide, by decide, by decide, by decide⟩ hfirst
    ⟨fun r hr => ?_, .inr fun px hpx py hpy h => ⟨.mk 1 (-1) 5 2, by simp, ?_⟩⟩ (show 1 < 2 by decide)
    (show 0 < 1 by decide)
  · obtain rfl : r = .mk 1 (-1) 5 2 := by simpa using hr
    exact ⟨by decide, by decide⟩
  · obtain rfl : py = 0 := Nat.lt_one_iff.mp hpy
    have hpx' : px < 2 := hpx
    obtain rfl | rfl : px = 0 ∨ px = 1 := by omega
    · exact absurd rfl h
    · simp [DirtyRegion.Has]

/-- Between two frames the cursor moves over what the first of them has shown. -/
theorem refreshCursor_shows {width height pitch : ℕ} {back front : Pixels}
    (hfit : (init width height pitch back front).Fits)
    (hframes : Frames (init width height pitch back front) t) (hdone : t.fullRedraw = false) (hpx : px < width)
    (hpy : py < height) :
    (ops.foldl step t).refreshCursor.framebuffer (py * (pitch / 4) + px) =
      overlay (ops.foldl step t).mouseX (ops.foldl step t).mouseY px py
        (t.backbuffer (py * (pitch / 4) + px)) := by
  have hframed := hframes.framed hfit
  have hkept := steps_kept (hfit.congr hframed.width hframed.height hframed.pitch) ops
  obtain ⟨hw, hh, hp, -, -, -, hx, hy⟩ := (ops.foldl step t).cursorErase_dims
  have hw' := (hw.trans hkept.width).trans hframed.width
  have hh' := (hh.trans hkept.height).trans hframed.height
  have hp' := (hp.trans hkept.pitch).trans hframed.pitch
  have hshown := hframed.shown.resolve_left (by rw [hdone]; exact Bool.false_ne_true) px
    (by rw [hframed.width]; exact hpx) py (by rw [hframed.height]; exact hpy)
  have hcursor := @drawCursor_framebuffer _ px py (hfit.congr hw' hh' hp')
    (by rw [hx, hy]; exact hkept.mouse hframed.mouse) (by rw [hw']; exact hpx) (by rw [hh']; exact hpy)
  have hscene : (ops.foldl step t).cursorErase.framebuffer = t.scene := hkept.scene
  rw [pitchPixels, hp', hx, hy, hscene] at hcursor
  rw [pitchPixels, hframed.pitch] at hshown
  exact hcursor.trans (congrArg _ hshown)

theorem refreshCursor_shows_gone :
    ([ScreenOp.drawPixel 0 0 7, .moveMouse 1 0].foldl step
      (init 2 1 8 (fun _ => 5) fun _ => 0).present).refreshCursor.framebuffer (0 * (8 / 4) + 0) = 5 :=
  refreshCursor_shows ⟨by decide, by decide, by decide, by decide, by decide⟩
    (@Frames.frame _ _ [] (.refl _) ⟨by simp, .inr fun _ _ _ _ h => absurd rfl h⟩) rfl
    (show 0 < 2 by decide) (show 0 < 1 by decide)

end Screen

end GcAos.Gui
