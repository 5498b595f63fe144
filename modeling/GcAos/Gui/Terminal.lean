import GcAos.Lib.CInt
import Mathlib.Logic.Function.Basic

/-! The terminal emulator of `kernel/gui/terminal.c`: output, escape sequences and keys. -/

namespace GcAos.Gui.Term
open Lib

def bytes (s : String) : List UInt8 := s.toList.map Char.toUInt8

/-- `chars`, `fg_colors` and `bg_colors`. -/
structure Cells where
  chars : ℤ → UInt8
  fgColors : ℤ → UInt8
  bgColors : ℤ → UInt8

namespace Cells

variable (c : Cells)

def setChar (idx : ℤ) (ch : UInt8) : Cells := { c with chars := Function.update c.chars idx ch }

def setCell (idx : ℤ) (ch fg bg : UInt8) : Cells where
  chars := Function.update c.chars idx ch
  fgColors := Function.update c.fgColors idx fg
  bgColors := Function.update c.bgColors idx bg

/-- `term_copy_cells` between different arrays. -/
def copy (src : Cells) (count : ℤ) : Cells :=
  (List.range count.toNat).foldl (fun (dst : Cells) (i : ℕ) =>
    dst.setCell i (src.chars i) (src.fgColors i) (src.bgColors i)) c

end Cells

/-- An array index: of a cell that is written, or of an element of `escape_buf` or `params` that is
written or read. -/
inductive Access
  | cell (i : ℤ)
  | escape (i : ℤ)
  | param (i : ℤ)
  deriving DecidableEq

/-- `struct terminal`. The elements of `escape_buf` and `input_buf` are those below `escape_len` and
`input_len`. `accesses` is not in the source. -/
structure Terminal where
  cells : Cells
  prev : Cells
  cols : ℤ
  rows : ℤ
  cursorX : ℤ := 0
  cursorY : ℤ := 0
  cursorVisible : Bool := true
  lastCursorX : ℤ := 0
  lastCursorY : ℤ := 0
  lastCursorVisible : Bool := false
  fullRefresh : Bool := true
  currentFg : UInt8 := 7
  currentBg : UInt8 := 0
  inEscape : Bool := false
  escapeBuf : List UInt8 := []
  contentX : ℤ
  contentY : ℤ
  lastContentX : ℤ
  lastContentY : ℤ
  inputBuf : List UInt8 := []
  accesses : List Access := []

/-- The numbers of an escape sequence: `params` up to `param_count`, and where the scan is. -/
structure Params where
  params : List ℤ := []
  num : ℤ := 0
  inNum : Bool := false
  accesses : List Access := []

namespace Params

variable (p : Params)

def push : Params :=
  { p with params := p.params ++ [p.num], accesses := p.accesses ++ [.param p.params.length] }

def turn (c : UInt8) : Params :=
  if '0'.toUInt8 ≤ c ∧ c ≤ '9'.toUInt8 then
    { p with num := toInt (p.num * 10 + (c.toNat - '0'.toUInt8.toNat)), inNum := true }
  else if c = ';'.toUInt8 then
    let p := if p.inNum then p.push else p
    { p with num := 0, inNum := false }
  else p

/-- `params[i]`, of which those past `param_count` are 0. -/
def get (i : ℕ) : ℤ := p.params.getD i 0

def count : ℤ := if 0 < p.get 0 then p.get 0 else 1

end Params

/-- A turn of the loop of `term_process_escape` over the sequence behind its first byte. -/
def Params.scan (escapeBuf : List UInt8) (p : Params) (i : ℕ) : Params :=
  if p.params.length < 8 then
    let p : Params := { p with accesses := p.accesses ++ [.escape (i + 1)] }
    p.turn (escapeBuf.getD (i + 1) 0)
  else p

def parseParams (escapeBuf : List UInt8) : Params :=
  let p := (List.range (escapeBuf.length - 1)).foldl (Params.scan escapeBuf) {}
  if p.inNum then p.push else p

namespace Terminal

variable (t : Terminal)

def touch (l : List Access) : Terminal := { t with accesses := t.accesses ++ l }

def writeChar (idx : ℤ) (c : UInt8) : Terminal :=
  { t with cells := t.cells.setChar idx c, accesses := t.accesses ++ [.cell idx] }

def writeCell (idx : ℤ) (c fg bg : UInt8) : Terminal :=
  { t with cells := t.cells.setCell idx c fg bg, accesses := t.accesses ++ [.cell idx] }

def index (row col : ℤ) : ℤ := toInt (row * t.cols + col)

def termClearLine (row : ℤ) : Terminal :=
  (List.range t.cols.toNat).foldl (fun (t : Terminal) (col : ℕ) =>
    t.writeCell (t.index row col) ' '.toUInt8 t.currentFg t.currentBg) t

/-- `term_copy_cells` within the arrays, from `width` cells further on. -/
def copyCells (width count : ℤ) : Terminal :=
  (List.range count.toNat).foldl (fun (t : Terminal) (i : ℕ) =>
    t.writeCell i (t.cells.chars (i + width)) (t.cells.fgColors (i + width))
      (t.cells.bgColors (i + width))) t

def termScrollUp : Terminal :=
  let t := t.copyCells t.cols (toInt ((t.rows - 1) * t.cols))
  { t.termClearLine (t.rows - 1) with fullRefresh := true }

def termNewline : Terminal :=
  let t := { t with cursorX := 0, cursorY := toInt (t.cursorY + 1) }
  if t.rows ≤ t.cursorY then { t.termScrollUp with cursorY := t.rows - 1 } else t

def clearScreen : Terminal :=
  let t := (List.range t.rows.toNat).foldl (fun (t : Terminal) (row : ℕ) => t.termClearLine row) t
  { t with cursorX := 0, cursorY := 0 }

def eraseLine : Terminal :=
  (List.range (t.cols - t.cursorX).toNat).foldl (fun (t : Terminal) (i : ℕ) =>
    t.writeChar (t.index t.cursorY (t.cursorX + i)) ' '.toUInt8) t

def rendition (p : ℤ) : Terminal :=
  if p = 0 then { t with currentFg := 7, currentBg := 0 }
  else if 30 ≤ p ∧ p ≤ 37 then { t with currentFg := .ofNat (p - 30).toNat }
  else if 40 ≤ p ∧ p ≤ 47 then { t with currentBg := .ofNat (p - 40).toNat }
  else if 90 ≤ p ∧ p ≤ 97 then { t with currentFg := .ofNat (p - 90 + 8).toNat }
  else if 100 ≤ p ∧ p ≤ 107 then { t with currentBg := .ofNat (p - 100 + 8).toNat }
  else t

/-- The `switch` of `term_process_escape`. -/
def command (cmd : UInt8) (p : Params) : Terminal :=
  if cmd = 'A'.toUInt8 then
    let y := toInt (t.cursorY - p.count)
    { t.touch [.param 0] with cursorY := if y < 0 then 0 else y }
  else if cmd = 'B'.toUInt8 then
    let y := toInt (t.cursorY + p.count)
    { t.touch [.param 0] with cursorY := if t.rows ≤ y then t.rows - 1 else y }
  else if cmd = 'C'.toUInt8 then
    let x := toInt (t.cursorX + p.count)
    { t.touch [.param 0] with cursorX := if t.cols ≤ x then t.cols - 1 else x }
  else if cmd = 'D'.toUInt8 then
    let x := toInt (t.cursorX - p.count)
    { t.touch [.param 0] with cursorX := if x < 0 then 0 else x }
  else if cmd = 'H'.toUInt8 ∨ cmd = 'f'.toUInt8 then
    let y := if 0 < p.get 0 then p.get 0 - 1 else 0
    let x := if 1 < p.params.length ∧ 0 < p.get 1 then p.get 1 - 1 else 0
    { t.touch (if 1 < p.params.length then [.param 0, .param 1] else [.param 0]) with
      cursorY := if t.rows ≤ y then t.rows - 1 else y
      cursorX := if t.cols ≤ x then t.cols - 1 else x }
  else if cmd = 'J'.toUInt8 then
    let t := t.touch [.param 0]
    if p.get 0 = 2 then t.clearScreen else t
  else if cmd = 'K'.toUInt8 then t.eraseLine
  else if cmd = 'm'.toUInt8 then
    (List.range p.params.length).foldl (fun (t : Terminal) (i : ℕ) =>
      (t.touch [.param i]).rendition (p.get i)) t
  else t

def termProcessEscape : Terminal :=
  if t.escapeBuf.length < 1 then t
  else
    let last := t.escapeBuf.length - 1
    let t := t.touch [.escape 0]
    let t :=
      if t.escapeBuf.getD 0 0 = '['.toUInt8 then
        let p := parseParams t.escapeBuf
        (t.touch (.escape last :: p.accesses)).command (t.escapeBuf.getD last 0) p
      else t
    { t with inEscape := false, escapeBuf := [] }

def EndsEscape (c : UInt8) : Prop :=
  'A'.toUInt8 ≤ c ∧ c ≤ 'Z'.toUInt8 ∨ 'a'.toUInt8 ≤ c ∧ c ≤ 'z'.toUInt8 ∨ c = '~'.toUInt8

instance (c : UInt8) : Decidable (EndsEscape c) := inferInstanceAs (Decidable (_ ∨ _))

def pushEscape (c : UInt8) : Terminal :=
  { t with escapeBuf := t.escapeBuf ++ [c], accesses := t.accesses ++ [.escape t.escapeBuf.length] }

def termPutc (c : UInt8) : Terminal :=
  if t.inEscape then
    let t := t.pushEscape c
    if EndsEscape c then t.termProcessEscape
    else if 31 ≤ t.escapeBuf.length then { t with inEscape := false, escapeBuf := [] }
    else t
  else if c = 27 then { t with inEscape := true, escapeBuf := [] }
  else if c = '\n'.toUInt8 then t.termNewline
  else if c = '\r'.toUInt8 then { t with cursorX := 0 }
  else if c = 8 then if 0 < t.cursorX then { t with cursorX := t.cursorX - 1 } else t
  else if c = '\t'.toUInt8 then
    let x := toInt (t.cursorX + 8)
    let t := { t with cursorX := x - x % 8 }
    if t.cols ≤ t.cursorX then t.termNewline else t
  else if 32 ≤ c ∧ c < 127 then
    let t := t.writeCell (t.index t.cursorY t.cursorX) c t.currentFg t.currentBg
    let t := { t with cursorX := toInt (t.cursorX + 1) }
    if t.cols ≤ t.cursorX then t.termNewline else t
  else t

def termPuts (str : List UInt8) : Terminal := str.foldl termPutc t

/-- `out` is what the commands print. No other command than `clear` does more to the terminal. -/
def termExecuteCommand (out : List UInt8 → List UInt8) (cmd : List UInt8) : Terminal :=
  let cmd := cmd.dropWhile (· = ' '.toUInt8)
  if cmd = [] then t
  else if bytes "clear" <+: cmd then t.clearScreen
  else t.termPuts (out cmd)

def prompt : List UInt8 := bytes "\x1b[32mgc-aos\x1b[0m:\x1b[34m~\x1b[0m$ "

def termHandleKey (out : List UInt8 → List UInt8) (key : ℤ) : Terminal :=
  if key = 10 ∨ key = 13 then
    let t := t.termPutc '\n'.toUInt8
    let t := if t.inputBuf = [] then t else t.termExecuteCommand out t.inputBuf
    { t.termPuts prompt with inputBuf := [] }
  else if key = 8 ∨ key = 127 then
    if t.inputBuf = [] then t
    else
      let t := { t with inputBuf := t.inputBuf.dropLast, cursorX := toInt (t.cursorX - 1) }
      t.writeChar (t.index t.cursorY t.cursorX) ' '.toUInt8
  else if 32 ≤ key ∧ key < 127 then
    if t.inputBuf.length < 255 then
      let c := UInt8.ofNat key.toNat
      let t := { t with inputBuf := t.inputBuf ++ [c] }
      t.termPutc c
    else t
  else t

end Terminal

def welcome : List UInt8 :=
  bytes "\x1b[1;36mGC AOS Terminal v1.0\x1b[0m\n" ++
    bytes "Type '\x1b[33mhelp\x1b[0m' for commands, " ++
    bytes "'\x1b[33mneofetch\x1b[0m' for system info.\n\n" ++ Terminal.prompt

/-- `term_create` when it gets its memory, in which `cells` and `prev` are found. -/
def termCreate (cells prev : Cells) (x y cols rows : ℤ) : Terminal :=
  let t : Terminal :=
    { cells := cells
      prev := prev
      cols := cols
      rows := rows
      contentX := x
      contentY := y
      lastContentX := x
      lastContentY := y }
  let t := (List.range rows.toNat).foldl (fun (t : Terminal) (row : ℕ) => t.termClearLine row) t
  let t := { t with prev := t.prev.copy t.cells (toInt (cols * rows)) }
  t.termPuts welcome

end GcAos.Gui.Term
