import GcAos.Gui.Terminal

/-! How `kernel/gui/terminal.c` draws the terminal. -/

namespace GcAos.Gui.Term
open Lib

abbrev Screen := ℤ × ℤ → UInt32

/-- Whether a pixel of a character, at a row and a column of its cell, has the foreground color. -/
abbrev Font := UInt8 → ℤ → ℤ → Bool

namespace Screen

variable (s : Screen)

def guiDrawRect (x y w h : ℤ) (color : UInt32) : Screen := fun p =>
  if (x ≤ p.1 ∧ p.1 < x + w) ∧ y ≤ p.2 ∧ p.2 < y + h then color else s p

def guiDrawChar (font : Font) (x y : ℤ) (c : UInt8) (fg bg : UInt32) : Screen := fun p =>
  if (x ≤ p.1 ∧ p.1 < x + 8) ∧ y ≤ p.2 ∧ p.2 < y + 16 then
    if font c (p.2 - y) (p.1 - x) then fg else bg
  else s p

end Screen

def termColors : List UInt32 :=
  [0x1E1E2E, 0xF38BA8, 0xA6E3A1, 0xF9E2AF, 0x89B4FA, 0xCBA6F7, 0x94E2D5, 0xCDD6F4,
    0x585B70, 0xF38BA8, 0xA6E3A1, 0xF9E2AF, 0x89B4FA, 0xCBA6F7, 0x94E2D5, 0xFFFFFF]

def termColor (color : UInt8) : UInt32 := termColors.getD (color &&& 0xF).toNat 0

def termPadding : ℤ := 4
def termCharW : ℤ := 8
def termCharH : ℤ := 16

namespace Terminal

variable (font : Font) (t : Terminal)

def cellX (col : ℤ) : ℤ := toInt (t.contentX + termPadding + col * termCharW)
def cellY (row : ℤ) : ℤ := toInt (t.contentY + termPadding + row * termCharH)

def drawChar (row col : ℤ) (s : Screen) : Screen :=
  let idx := t.index row col
  s.guiDrawChar font (t.cellX col) (t.cellY row) (t.cells.chars idx) (termColor (t.cells.fgColors idx))
    (termColor (t.cells.bgColors idx))

def termDrawCell (row col : ℤ) (s : Screen) : Screen :=
  if row < 0 ∨ t.rows ≤ row ∨ col < 0 ∨ t.cols ≤ col then s else t.drawChar font row col s

def redraw (s : Screen) : Screen :=
  let s := s.guiDrawRect t.contentX t.contentY (toInt (t.cols * termCharW + termPadding * 2))
    (toInt (t.rows * termCharH + termPadding * 2)) (termColor 0)
  (List.range t.rows.toNat).foldl (fun (s : Screen) (row : ℕ) =>
    (List.range t.cols.toNat).foldl (fun (s : Screen) (col : ℕ) => t.termDrawCell font row col s) s) s

def Changed (i : ℤ) : Prop :=
  t.cells.chars i ≠ t.prev.chars i ∨ t.cells.fgColors i ≠ t.prev.fgColors i ∨
    t.cells.bgColors i ≠ t.prev.bgColors i

instance (i : ℤ) : Decidable (t.Changed i) := inferInstanceAs (Decidable (_ ∨ _))

def cellCount : ℤ := toInt (t.rows * t.cols)

def redrawChanged (s : Screen) : Screen :=
  (List.range t.cellCount.toNat).foldl (fun (s : Screen) (i : ℕ) =>
    if t.Changed i then t.termDrawCell font ((i : ℤ).tdiv t.cols) ((i : ℤ).tmod t.cols) s else s) s

def clearCursor (s : Screen) : Screen :=
  if t.lastCursorVisible then t.drawChar font t.lastCursorY t.lastCursorX s else s

def drawCursor (s : Screen) : Screen :=
  if t.cursorVisible then
    s.guiDrawRect (t.cellX t.cursorX) (t.cellY t.cursorY) termCharW termCharH (termColor 7)
  else s

def PositionChanged : Prop := t.contentX ≠ t.lastContentX ∨ t.contentY ≠ t.lastContentY

instance : Decidable t.PositionChanged := inferInstanceAs (Decidable (_ ∨ _))

def termRender (s : Screen) : Terminal × Screen :=
  let s := if t.fullRefresh ∨ t.PositionChanged then t.redraw font s else t.redrawChanged font s
  let s := t.drawCursor (t.clearCursor font s)
  let t := { t with
    prev := t.prev.copy t.cells t.cellCount
    lastCursorX := t.cursorX
    lastCursorY := t.cursorY
    lastCursorVisible := t.cursorVisible
    lastContentX := t.contentX
    lastContentY := t.contentY
    fullRefresh := false }
  (t, s)

def termSetContentPos (x y : ℤ) : Terminal :=
  let t := if t.contentX ≠ x ∨ t.contentY ≠ y then { t with fullRefresh := true } else t
  { t with contentX := x, contentY := y }

end Terminal

end GcAos.Gui.Term
