import GcAos.Gui.Terminal
import GcAos.Lib.Exec

/-! The cursor on the grid of the terminal, and the indices of its arrays. -/

namespace GcAos.Gui.Term
open Lib

def Access.Inside (rows cols : ℤ) : Access → Prop
  | cell i => 0 ≤ i ∧ i < rows * cols
  | escape i => 0 ≤ i ∧ i < 32
  | param i => 0 ≤ i ∧ i < 8

/-- A byte of output, or a key with what the commands print then. -/
inductive TermStep
  | putc (c : UInt8)
  | key (out : List UInt8 → List UInt8) (key : ℤ)

namespace Terminal

variable (t : Terminal)

def run : TermStep → Terminal
  | .putc c => t.termPutc c
  | .key out key => t.termHandleKey out key

structure OnGrid : Prop where
  x_nonneg : 0 ≤ t.cursorX
  x_lt : t.cursorX < t.cols
  y_nonneg : 0 ≤ t.cursorY
  y_lt : t.cursorY < t.rows

/-- The byte ends no escape sequence that moves the cursor down or forward past the range of an `int`, and
is no tabulator that does. -/
def PutcSafe (c : UInt8) : Prop :=
  (t.inEscape = true → (t.escapeBuf ++ [c]).head? = some '['.toUInt8 →
    (c = 'B'.toUInt8 → t.cursorY + (parseParams (t.escapeBuf ++ [c])).count < 2 ^ 31) ∧
    (c = 'C'.toUInt8 → t.cursorX + (parseParams (t.escapeBuf ++ [c])).count < 2 ^ 31)) ∧
  (t.inEscape = false → c = '\t'.toUInt8 → t.cursorX + 8 < 2 ^ 31)

instance (c : UInt8) : Decidable (t.PutcSafe c) := inferInstanceAs (Decidable (_ ∧ _))

def PutsSafe : Terminal → List UInt8 → Prop
  | _, [] => True
  | t, c :: str => t.PutcSafe c ∧ PutsSafe (t.termPutc c) str

instance decidePutsSafe : (t : Terminal) → (str : List UInt8) → Decidable (t.PutsSafe str)
  | _, [] => .isTrue trivial
  | t, c :: str =>
    have := decidePutsSafe (t.termPutc c) str
    inferInstanceAs (Decidable (_ ∧ _))

def ExecuteSafe (out : List UInt8 → List UInt8) (cmd : List UInt8) : Prop :=
  let cmd := cmd.dropWhile (· = ' '.toUInt8)
  cmd ≠ [] → ¬bytes "clear" <+: cmd → t.PutsSafe (out cmd)

/-- All bytes of output are as above, and no character is erased at the start of a line. -/
def KeySafe (out : List UInt8 → List UInt8) (key : ℤ) : Prop :=
  if key = 10 ∨ key = 13 then
    t.PutcSafe '\n'.toUInt8 ∧
      let t := t.termPutc '\n'.toUInt8
      (t.inputBuf ≠ [] → t.ExecuteSafe out t.inputBuf) ∧
        PutsSafe (if t.inputBuf = [] then t else t.termExecuteCommand out t.inputBuf) prompt
  else if key = 8 ∨ key = 127 then t.inputBuf ≠ [] → 0 < t.cursorX
  else 32 ≤ key ∧ key < 127 → t.inputBuf.length < 255 → t.PutcSafe (.ofNat key.toNat)

def Safe : TermStep → Prop
  | .putc c => t.PutcSafe c
  | .key out key => t.KeySafe out key

/-- The cells have indices that are `int`s. -/
structure Fits : Prop where
  cols_pos : 1 ≤ t.cols
  rows_pos : 1 ≤ t.rows
  size : t.rows * t.cols < 2 ^ 31

structure Sound : Prop extends Fits t where
  escape : t.escapeBuf.length ≤ 30
  inside : ∀ a ∈ t.accesses, a.Inside t.rows t.cols

structure Keeps (t t' : Terminal) : Prop where
  prev : t'.prev = t.prev
  cols : t'.cols = t.cols
  rows : t'.rows = t.rows
  cursorVisible : t'.cursorVisible = t.cursorVisible
  lastCursorX : t'.lastCursorX = t.lastCursorX
  lastCursorY : t'.lastCursorY = t.lastCursorY
  lastCursorVisible : t'.lastCursorVisible = t.lastCursorVisible
  contentX : t'.contentX = t.contentX
  contentY : t'.contentY = t.contentY
  lastContentX : t'.lastContentX = t.lastContentX
  lastContentY : t'.lastContentY = t.lastContentY
  fullRefresh : t.fullRefresh = true → t'.fullRefresh = true
  inside : ∀ a ∈ t'.accesses, a ∈ t.accesses ∨ a.Inside t.rows t.cols

def Paints (t t' : Terminal) : Prop :=
  ∃ cells fg bg l, t' = { t with cells := cells, currentFg := fg, currentBg := bg
                                 accesses := t.accesses ++ l } ∧
    ∀ a ∈ l, a.Inside t.rows t.cols

end Terminal

namespace Terminal

variable {t t' t'' : Terminal} {idx row col : ℤ} {c fg bg : UInt8} {l : List Access}

theorem Fits.index (h : t.Fits) (hrow : 0 ≤ row ∧ row < t.rows) (hcol : 0 ≤ col ∧ col < t.cols) :
    t.index row col = row * t.cols + col ∧ 0 ≤ t.index row col ∧ t.index row col < t.rows * t.cols := by
  have hcols := h.cols_pos
  have hsize := h.size
  have hlow : 0 ≤ row * t.cols := mul_nonneg hrow.1 (by omega)
  have hnext : (row + 1) * t.cols ≤ t.rows * t.cols :=
    mul_le_mul_of_nonneg_right (by omega) (by omega)
  rw [add_mul, one_mul] at hnext
  have heq : t.index row col = row * t.cols + col := toInt_of_isInt ⟨by omega, by omega⟩
  refine ⟨heq, ?_, ?_⟩ <;> omega

theorem Fits.dims_le (h : t.Fits) : t.cols ≤ t.rows * t.cols ∧ t.rows ≤ t.rows * t.cols := by
  have hcols := h.cols_pos
  have hrows := h.rows_pos
  exact ⟨le_mul_of_one_le_left (by omega) hrows, le_mul_of_one_le_right (by omega) hcols⟩

namespace Paints

theorem refl (t : Terminal) : Paints t t :=
  ⟨t.cells, t.currentFg, t.currentBg, [], by rw [List.append_nil], by simp⟩

theorem trans (h : Paints t t') (h' : Paints t' t'') : Paints t t'' := by
  obtain ⟨cells, fg, bg, l, rfl, hl⟩ := h
  obtain ⟨cells', fg', bg', l', rfl, hl'⟩ := h'
  refine ⟨cells', fg', bg', l ++ l', by rw [List.append_assoc], fun a ha => ?_⟩
  exact (List.mem_append.mp ha).elim (hl a) (hl' a)

theorem foldl {α : Type} {f : Terminal → α → Terminal} {as : List α}
    (h : ∀ u, Paints t u → ∀ a ∈ as, Paints u (f u a)) : Paints t (as.foldl f t) := by
  suffices hsuffix : ∀ u, Paints t u → Paints t (as.foldl f u) from hsuffix t (.refl t)
  induction as with
  | nil => exact fun u hu => hu
  | cons a as ih =>
    intro u hu
    exact ih (fun v hv b hb => h v hv b (List.mem_cons_of_mem a hb)) _
      (hu.trans (h u hu a List.mem_cons_self))

theorem still (h : Paints t t') : t'.cols = t.cols ∧ t'.rows = t.rows ∧ t'.cursorX = t.cursorX ∧
    t'.cursorY = t.cursorY := by
  obtain ⟨cells, fg, bg, l, rfl, -⟩ := h
  exact ⟨rfl, rfl, rfl, rfl⟩

theorem fits (h : Paints t t') (hf : t.Fits) : t'.Fits := by
  obtain ⟨cells, fg, bg, l, rfl, -⟩ := h
  exact ⟨hf.cols_pos, hf.rows_pos, hf.size⟩

theorem onGrid (h : Paints t t') (hg : t.OnGrid) : t'.OnGrid := by
  obtain ⟨cells, fg, bg, l, rfl, -⟩ := h
  exact ⟨hg.x_nonneg, hg.x_lt, hg.y_nonneg, hg.y_lt⟩

theorem sound (h : Paints t t') (hs : t.Sound) : t'.Sound := by
  have hf := h.fits hs.toFits
  obtain ⟨cells, fg, bg, l, rfl, hl⟩ := h
  exact ⟨hf, hs.escape, fun a ha => (List.mem_append.mp ha).elim (hs.inside a) (hl a)⟩

end Paints

theorem touch_paints (h : ∀ a ∈ l, a.Inside t.rows t.cols) : Paints t (t.touch l) :=
  ⟨t.cells, t.currentFg, t.currentBg, l, rfl, h⟩

theorem writeChar_paints (h : 0 ≤ idx ∧ idx < t.rows * t.cols) : Paints t (t.writeChar idx c) :=
  ⟨_, t.currentFg, t.currentBg, [.cell idx], rfl, fun a ha => by rwa [List.mem_singleton.mp ha]⟩

theorem writeCell_paints (h : 0 ≤ idx ∧ idx < t.rows * t.cols) : Paints t (t.writeCell idx c fg bg) :=
  ⟨_, t.currentFg, t.currentBg, [.cell idx], rfl, fun a ha => by rwa [List.mem_singleton.mp ha]⟩

theorem termClearLine_paints (h : t.Fits) (hrow : 0 ≤ row ∧ row < t.rows) :
    Paints t (t.termClearLine row) := by
  refine .foldl fun u hu col hcol => writeCell_paints ?_
  have hcol := List.mem_range.mp hcol
  obtain ⟨hcols, hrows, -, -⟩ := hu.still
  exact ((hu.fits h).index (hrows ▸ hrow) ⟨by omega, by omega⟩).2

theorem copyCells_paints (width : ℤ) {count : ℤ} (hcount : count ≤ t.rows * t.cols) :
    Paints t (t.copyCells width count) := by
  refine .foldl fun u hu i hi => writeCell_paints ?_
  have hi := List.mem_range.mp hi
  obtain ⟨hcols, hrows, -, -⟩ := hu.still
  rw [hrows, hcols]
  exact ⟨by omega, by omega⟩

theorem clearLines_paints (h : t.Fits) :
    Paints t ((List.range t.rows.toNat).foldl (fun (t : Terminal) (row : ℕ) => t.termClearLine row) t) := by
  refine .foldl fun u hu row hrow => termClearLine_paints (hu.fits h) ?_
  have hrow := List.mem_range.mp hrow
  obtain ⟨-, hrows, -, -⟩ := hu.still
  exact ⟨by omega, by omega⟩

theorem eraseLine_paints (h : t.Fits) (hg : t.OnGrid) : Paints t t.eraseLine := by
  obtain ⟨hx₀, hx₁, hy₀, hy₁⟩ := hg
  refine .foldl fun u hu i hi => writeChar_paints ?_
  have hi := List.mem_range.mp hi
  obtain ⟨hcols, hrows, hx, hy⟩ := hu.still
  exact ((hu.fits h).index ⟨by omega, by omega⟩ ⟨by omega, by omega⟩).2

namespace Keeps

theorem refl (t : Terminal) : Keeps t t :=
  ⟨rfl, rfl, rfl, rfl, rfl, rfl, rfl, rfl, rfl, rfl, rfl, id, fun _ => .inl⟩

theorem trans (h : Keeps t t') (h' : Keeps t' t'') : Keeps t t'' where
  prev := h'.prev.trans h.prev
  cols := h'.cols.trans h.cols
  rows := h'.rows.trans h.rows
  cursorVisible := h'.cursorVisible.trans h.cursorVisible
  lastCursorX := h'.lastCursorX.trans h.lastCursorX
  lastCursorY := h'.lastCursorY.trans h.lastCursorY
  lastCursorVisible := h'.lastCursorVisible.trans h.lastCursorVisible
  contentX := h'.contentX.trans h.contentX
  contentY := h'.contentY.trans h.contentY
  lastContentX := h'.lastContentX.trans h.lastContentX
  lastContentY := h'.lastContentY.trans h.lastContentY
  fullRefresh hf := h'.fullRefresh (h.fullRefresh hf)
  inside a ha := by
    rcases h'.inside a ha with hin | hin
    · exact h.inside a hin
    · rw [h.rows, h.cols] at hin
      exact .inr hin

theorem fits (h : Keeps t t') (hf : t.Fits) : t'.Fits := by
  refine ⟨?_, ?_, ?_⟩
  · exact h.cols ▸ hf.cols_pos
  · exact h.rows ▸ hf.rows_pos
  · rw [h.rows, h.cols]
    exact hf.size

theorem sound (h : Keeps t t') (hs : t.Sound) (hescape : t'.escapeBuf.length ≤ 30) : t'.Sound := by
  refine ⟨h.fits hs.toFits, hescape, fun a ha => ?_⟩
  rw [h.rows, h.cols]
  exact (h.inside a ha).elim (hs.inside a) id

end Keeps

theorem Paints.keeps (h : Paints t t') : Keeps t t' := by
  obtain ⟨cells, fg, bg, l, rfl, hl⟩ := h
  exact ⟨rfl, rfl, rfl, rfl, rfl, rfl, rfl, rfl, rfl, rfl, rfl, id, fun a ha =>
    (List.mem_append.mp ha).imp_right (hl a)⟩

/-! ## Lines -/

theorem termScrollUp_spec (h : t.Fits) :
    ∃ u, Paints t u ∧ t.termScrollUp = { u with fullRefresh := true } := by
  obtain ⟨hcols, hrows⟩ := h.dims_le
  have hpos := h.rows_pos
  have hsize := h.size
  have hle : (t.rows - 1) * t.cols ≤ t.rows * t.cols :=
    mul_le_mul_of_nonneg_right (by omega) (by have := h.cols_pos; omega)
  have hlow : 0 ≤ (t.rows - 1) * t.cols := mul_nonneg (by omega) (by have := h.cols_pos; omega)
  have hcount : toInt ((t.rows - 1) * t.cols) ≤ t.rows * t.cols := by
    rw [toInt_of_isInt ⟨by omega, by omega⟩]
    exact hle
  have hcopy := copyCells_paints t.cols hcount
  obtain ⟨-, hrows', -, -⟩ := hcopy.still
  have hlast : 0 ≤ t.rows - 1 ∧ t.rows - 1 < (t.copyCells t.cols (toInt ((t.rows - 1) * t.cols))).rows :=
    ⟨by omega, by omega⟩
  have hclear := termClearLine_paints (hcopy.fits h) hlast
  refine ⟨_, hcopy.trans hclear, ?_⟩
  rw [termScrollUp, hrows']

theorem termNewline_spec (h : t.Fits) (hy : 0 ≤ t.cursorY ∧ t.cursorY < t.rows) :
    Keeps t t.termNewline ∧ t.termNewline.OnGrid ∧ t.termNewline.escapeBuf = t.escapeBuf ∧
      t.termNewline.inEscape = t.inEscape := by
  have hcols := h.cols_pos
  have hrows := h.rows_pos
  have hsize := h.size
  have hle := h.dims_le.2
  have hnext : toInt (t.cursorY + 1) = t.cursorY + 1 := toInt_of_isInt ⟨by omega, by omega⟩
  unfold termNewline
  dsimp only
  rw [hnext]
  by_cases hend : t.rows ≤ t.cursorY + 1
  · rw [if_pos hend]
    have hf : Fits { t with cursorX := 0, cursorY := t.cursorY + 1 } := ⟨hcols, hrows, hsize⟩
    obtain ⟨u, ⟨cells, fg, bg, l, rfl, hl⟩, hscroll⟩ := termScrollUp_spec hf
    rw [hscroll]
    have hgrid := And.intro (sub_nonneg.mpr hrows) (sub_one_lt t.rows)
    exact ⟨⟨rfl, rfl, rfl, rfl, rfl, rfl, rfl, rfl, rfl, rfl, rfl, fun _ => rfl, fun a ha =>
      (List.mem_append.mp ha).imp_right (hl a)⟩, ⟨le_rfl, hcols, hgrid.1, hgrid.2⟩, rfl, rfl⟩
  · rw [if_neg hend]
    exact ⟨{ Keeps.refl t with }, ⟨le_rfl, hcols, by dsimp only; omega, not_le.mp hend⟩, rfl,
      rfl⟩

theorem clearScreen_spec (h : t.Fits) : Keeps t t.clearScreen ∧ t.clearScreen.OnGrid ∧
    t.clearScreen.escapeBuf = t.escapeBuf := by
  obtain ⟨cells, fg, bg, l, heq, hl⟩ := clearLines_paints h
  rw [clearScreen, heq]
  exact ⟨⟨rfl, rfl, rfl, rfl, rfl, rfl, rfl, rfl, rfl, rfl, rfl, id, fun a ha =>
    (List.mem_append.mp ha).imp_right (hl a)⟩, ⟨le_rfl, h.cols_pos, le_rfl, h.rows_pos⟩, rfl⟩

end Terminal

/-! ## Escape sequences -/

structure Params.Ok (p : Params) : Prop where
  length : p.params.length ≤ 8
  room : p.inNum = true → p.params.length < 8
  isInt : ∀ n ∈ p.params, IsInt n
  num : IsInt p.num
  inside : ∀ a ∈ p.accesses, a.Inside 0 0

namespace Params

variable {p : Params}

theorem Ok.push (h : p.Ok) (hlt : p.params.length < 8) :
    p.push.params.length ≤ 8 ∧ (∀ n ∈ p.push.params, IsInt n) ∧ ∀ a ∈ p.push.accesses, a.Inside 0 0 := by
  unfold Params.push
  dsimp only
  refine ⟨by rw [List.length_append]; exact hlt, fun n hn => ?_, fun a ha => ?_⟩
  · rcases List.mem_append.mp hn with hn | hn
    · exact h.isInt n hn
    · rw [List.mem_singleton.mp hn]
      exact h.num
  · rcases List.mem_append.mp ha with ha | ha
    · exact h.inside a ha
    · rw [List.mem_singleton.mp ha]
      exact ⟨by omega, by omega⟩

theorem Ok.turn (h : p.Ok) (hlt : p.params.length < 8) (c : UInt8) : (p.turn c).Ok := by
  have hzero : IsInt 0 := by decide
  unfold Params.turn
  by_cases hdigit : '0'.toUInt8 ≤ c ∧ c ≤ '9'.toUInt8
  · rw [if_pos hdigit]
    exact ⟨h.length, fun _ => hlt, h.isInt, isInt_toInt _, h.inside⟩
  rw [if_neg hdigit]
  by_cases hsemi : c = ';'.toUInt8
  · rw [if_pos hsemi]
    dsimp only
    by_cases hin : p.inNum = true
    · rw [if_pos hin]
      obtain ⟨hlength, hint, hinside⟩ := h.push hlt
      exact ⟨hlength, fun hf => absurd hf (by simp), hint, hzero, hinside⟩
    · rw [if_neg hin]
      exact ⟨h.length, fun hf => absurd hf (by simp), h.isInt, hzero, h.inside⟩
  · rw [if_neg hsemi]
    exact h

theorem Ok.scan (h : p.Ok) {buf : List UInt8} {i : ℕ} (hi : i < 30) : (p.scan buf i).Ok := by
  unfold Params.scan
  by_cases hlt : p.params.length < 8
  · rw [if_pos hlt]
    have hread : Ok { p with accesses := p.accesses ++ [.escape (i + 1)] } := by
      refine ⟨h.length, h.room, h.isInt, h.num, fun a ha => ?_⟩
      rcases List.mem_append.mp ha with ha | ha
      · exact h.inside a ha
      · rw [List.mem_singleton.mp ha]
        exact ⟨by omega, by omega⟩
    exact hread.turn hlt _
  · rw [if_neg hlt]
    exact h

theorem Ok.foldl (h : p.Ok) {buf : List UInt8} {is : List ℕ} (his : ∀ i ∈ is, i < 30) :
    (is.foldl (Params.scan buf) p).Ok := by
  induction is generalizing p with
  | nil => exact h
  | cons i is ih =>
    exact ih (h.scan (his i List.mem_cons_self)) fun j hj => his j (List.mem_cons_of_mem i hj)

theorem count_bounds (h : ∀ n ∈ p.params, IsInt n) : 1 ≤ p.count ∧ p.count < 2 ^ 31 := by
  unfold count
  by_cases hpos : 0 < p.get 0
  · rw [if_pos hpos]
    refine ⟨hpos, ?_⟩
    cases hp : p.params with
    | nil =>
      rw [get, hp]
      decide
    | cons n ns =>
      rw [get, hp]
      exact (h n (hp ▸ List.mem_cons_self)).2
  · rw [if_neg hpos]
    exact ⟨le_rfl, by decide⟩

end Params

theorem Access.Inside.of_zero {a : Access} (h : a.Inside 0 0) (rows cols : ℤ) : a.Inside rows cols := by
  cases a with
  | cell i => exact absurd (h.1.trans_lt h.2) (by decide)
  | escape i => exact h
  | param i => exact h

theorem parseParams_spec (buf : List UInt8) (hbuf : buf.length ≤ 31) :
    (parseParams buf).params.length ≤ 8 ∧ (∀ n ∈ (parseParams buf).params, IsInt n) ∧
      ∀ a ∈ (parseParams buf).accesses, a.Inside 0 0 := by
  have hstart : ({} : Params).Ok :=
    ⟨by decide, fun hf => absurd hf (by simp), by simp, by decide, by simp⟩
  have hok : ((List.range (buf.length - 1)).foldl (Params.scan buf) {}).Ok := by
    refine hstart.foldl fun i hi => ?_
    have := List.mem_range.mp hi
    omega
  unfold parseParams
  dsimp only
  split
  · next hin => exact hok.push (hok.room hin)
  · exact ⟨hok.length, hok.isInt, hok.inside⟩

namespace Terminal

variable {t : Terminal} {c cmd : UInt8} {p : Params}

theorem rendition_paints (t : Terminal) (n : ℤ) : Paints t (t.rendition n) := by
  have hset (fg bg : UInt8) : Paints t { t with currentFg := fg, currentBg := bg } :=
    ⟨t.cells, fg, bg, [], by rw [List.append_nil], by simp⟩
  unfold rendition
  split_ifs
  · exact hset 7 0
  · exact hset _ t.currentBg
  · exact hset t.currentFg _
  · exact hset _ t.currentBg
  · exact hset t.currentFg _
  · exact .refl t

theorem renditions_paints (hp : p.params.length ≤ 8) :
    Paints t ((List.range p.params.length).foldl (fun (t : Terminal) (i : ℕ) =>
      (t.touch [.param i]).rendition (p.get i)) t) := by
  refine .foldl fun u _ i hi => ?_
  have hi := List.mem_range.mp hi
  refine (touch_paints fun a ha => ?_).trans (rendition_paints _ _)
  rw [List.mem_singleton.mp ha]
  exact ⟨by omega, by omega⟩

theorem param_paints (t : Terminal) (more : Bool) :
    Paints t (t.touch (if more then [.param 0, .param 1] else [.param 0])) := by
  refine touch_paints fun a ha => ?_
  have ha : a = .param 0 ∨ a = .param 1 := by
    cases more
    · exact .inl (List.mem_singleton.mp ha)
    · simpa using ha
  rcases ha with rfl | rfl <;> exact ⟨by decide, by decide⟩

theorem moved_back {v n bound : ℤ} (hv : 0 ≤ v ∧ v < bound) (hbound : bound < 2 ^ 31)
    (hn : 1 ≤ n ∧ n < 2 ^ 31) :
    0 ≤ (if toInt (v - n) < 0 then 0 else toInt (v - n)) ∧
      (if toInt (v - n) < 0 then 0 else toInt (v - n)) < bound := by
  rw [toInt_of_isInt ⟨by omega, by omega⟩]
  split <;> omega

theorem moved_on {v n bound : ℤ} (hv : 0 ≤ v ∧ v < bound) (hn : 1 ≤ n) (hfit : v + n < 2 ^ 31) :
    0 ≤ (if bound ≤ toInt (v + n) then bound - 1 else toInt (v + n)) ∧
      (if bound ≤ toInt (v + n) then bound - 1 else toInt (v + n)) < bound := by
  rw [toInt_of_isInt ⟨by omega, by omega⟩]
  split <;> omega

theorem clamped {v bound : ℤ} (hv : 0 ≤ v) (hbound : 1 ≤ bound) :
    0 ≤ (if bound ≤ v then bound - 1 else v) ∧ (if bound ≤ v then bound - 1 else v) < bound := by
  split <;> omega

theorem command_spec (h : t.Fits) (hg : t.OnGrid) (cmd : UInt8) (hp : p.params.length ≤ 8)
    (hint : ∀ n ∈ p.params, IsInt n) :
    Keeps t (t.command cmd p) ∧
      ((cmd = 'B'.toUInt8 → t.cursorY + p.count < 2 ^ 31) →
        (cmd = 'C'.toUInt8 → t.cursorX + p.count < 2 ^ 31) → (t.command cmd p).OnGrid) := by
  have hone : Keeps t (t.touch [.param 0]) := (param_paints t false).keeps
  have hcount := Params.count_bounds hint
  have hsize := h.size
  obtain ⟨hcols, hrows⟩ := h.dims_le
  obtain ⟨hx₀, hx₁, hy₀, hy₁⟩ := hg
  unfold command
  dsimp only
  by_cases hA : cmd = 'A'.toUInt8
  · rw [if_pos hA]
    obtain ⟨hlow, hhigh⟩ := moved_back ⟨hy₀, hy₁⟩ (by omega) hcount
    exact ⟨{ hone with }, fun _ _ => ⟨hx₀, hx₁, hlow, hhigh⟩⟩
  rw [if_neg hA]
  by_cases hB : cmd = 'B'.toUInt8
  · rw [if_pos hB]
    refine ⟨{ hone with }, fun hfit _ => ?_⟩
    obtain ⟨hlow, hhigh⟩ := moved_on ⟨hy₀, hy₁⟩ hcount.1 (hfit hB)
    exact ⟨hx₀, hx₁, hlow, hhigh⟩
  rw [if_neg hB]
  by_cases hC : cmd = 'C'.toUInt8
  · rw [if_pos hC]
    refine ⟨{ hone with }, fun _ hfit => ?_⟩
    obtain ⟨hlow, hhigh⟩ := moved_on ⟨hx₀, hx₁⟩ hcount.1 (hfit hC)
    exact ⟨hlow, hhigh, hy₀, hy₁⟩
  rw [if_neg hC]
  by_cases hD : cmd = 'D'.toUInt8
  · rw [if_pos hD]
    obtain ⟨hlow, hhigh⟩ := moved_back ⟨hx₀, hx₁⟩ (by omega) hcount
    exact ⟨{ hone with }, fun _ _ => ⟨hlow, hhigh, hy₀, hy₁⟩⟩
  rw [if_neg hD]
  by_cases hH : cmd = 'H'.toUInt8 ∨ cmd = 'f'.toUInt8
  · rw [if_pos hH]
    have hmore := (param_paints t (decide (1 < p.params.length))).keeps
    simp only [decide_eq_true_eq] at hmore
    obtain ⟨hxlow, hxhigh⟩ := clamped (v := if 1 < p.params.length ∧ 0 < p.get 1 then p.get 1 - 1 else 0)
      (by split <;> omega) h.cols_pos
    obtain ⟨hylow, hyhigh⟩ := clamped (v := if 0 < p.get 0 then p.get 0 - 1 else 0)
      (by split <;> omega) h.rows_pos
    exact ⟨{ hmore with }, fun _ _ => ⟨hxlow, hxhigh, hylow, hyhigh⟩⟩
  rw [if_neg hH]
  by_cases hJ : cmd = 'J'.toUInt8
  · rw [if_pos hJ]
    split
    · obtain ⟨hkeeps, hgrid, -⟩ := clearScreen_spec (hone.fits h)
      exact ⟨hone.trans hkeeps, fun _ _ => hgrid⟩
    · exact ⟨hone, fun _ _ => ⟨hx₀, hx₁, hy₀, hy₁⟩⟩
  rw [if_neg hJ]
  by_cases hK : cmd = 'K'.toUInt8
  · rw [if_pos hK]
    have hpaints := eraseLine_paints h ⟨hx₀, hx₁, hy₀, hy₁⟩
    exact ⟨hpaints.keeps, fun _ _ => hpaints.onGrid ⟨hx₀, hx₁, hy₀, hy₁⟩⟩
  rw [if_neg hK]
  by_cases hm : cmd = 'm'.toUInt8
  · rw [if_pos hm]
    have hpaints := renditions_paints (t := t) hp
    exact ⟨hpaints.keeps, fun _ _ => hpaints.onGrid ⟨hx₀, hx₁, hy₀, hy₁⟩⟩
  · rw [if_neg hm]
    exact ⟨.refl t, fun _ _ => ⟨hx₀, hx₁, hy₀, hy₁⟩⟩

theorem termProcessEscape_spec (h : t.Fits) (hg : t.OnGrid) {buf : List UInt8}
    (hbuf : t.escapeBuf = buf ++ [c]) (hlength : buf.length ≤ 30) :
    Keeps t t.termProcessEscape ∧ t.termProcessEscape.escapeBuf = [] ∧
      (((buf ++ [c]).head? = some '['.toUInt8 →
        (c = 'B'.toUInt8 → t.cursorY + (parseParams (buf ++ [c])).count < 2 ^ 31) ∧
        (c = 'C'.toUInt8 → t.cursorX + (parseParams (buf ++ [c])).count < 2 ^ 31)) →
      t.termProcessEscape.OnGrid) := by
  have hlen : t.escapeBuf.length = buf.length + 1 := by rw [hbuf, List.length_append]; rfl
  have hlast : (buf ++ [c]).getD buf.length 0 = c := by simp
  have hfirst : ∀ b : UInt8, (buf ++ [c]).getD 0 0 = b ↔ (buf ++ [c]).head? = some b := by
    intro b
    cases buf <;> simp
  have hzero : Paints t (t.touch [.escape 0]) := touch_paints fun a ha => by
    rw [List.mem_singleton.mp ha]
    exact ⟨by decide, by decide⟩
  unfold termProcessEscape
  rw [if_neg (by omega)]
  dsimp only
  rw [show (t.touch [.escape 0]).escapeBuf = buf ++ [c] from hbuf, hlen, Nat.add_sub_cancel, hlast]
  by_cases hcsi : (buf ++ [c]).getD 0 0 = '['.toUInt8
  · rw [if_pos hcsi]
    obtain ⟨hcount, hint, hinside⟩ := parseParams_spec (buf ++ [c]) (by
      rw [List.length_append]
      exact Nat.succ_le_succ hlength)
    have hread : Paints t ((t.touch [.escape 0]).touch
        (.escape buf.length :: (parseParams (buf ++ [c])).accesses)) := by
      refine hzero.trans (touch_paints fun a ha => ?_)
      rcases List.mem_cons.mp ha with rfl | ha
      · exact ⟨by omega, by omega⟩
      · exact (hinside a ha).of_zero _ _
    obtain ⟨hkeeps, hgrid⟩ := command_spec (hread.fits h) (hread.onGrid hg) c hcount hint
    refine ⟨{ hread.keeps.trans hkeeps with }, rfl, fun hsafe => ?_⟩
    obtain ⟨hB, hC⟩ := hsafe ((hfirst _).mp hcsi)
    exact { hgrid hB hC with }
  · rw [if_neg hcsi]
    exact ⟨{ hzero.keeps with }, rfl, fun _ => { hzero.onGrid hg with }⟩

/-! ## Output -/

theorem termPutc_escape (hs : t.Sound) (hg : t.OnGrid) (hin : t.inEscape = true) (c : UInt8) :
    (t.termPutc c).Sound ∧ Keeps t (t.termPutc c) ∧ (t.PutcSafe c → (t.termPutc c).OnGrid) := by
  have hlength := hs.escape
  have hpush : Keeps t (t.pushEscape c) :=
    ⟨rfl, rfl, rfl, rfl, rfl, rfl, rfl, rfl, rfl, rfl, rfl, id, fun a ha =>
      (List.mem_append.mp ha).imp_right fun ha => by
        rw [List.mem_singleton.mp ha]
        exact ⟨by omega, by omega⟩⟩
  have hgrid : (t.pushEscape c).OnGrid := { hg with }
  unfold termPutc
  rw [if_pos hin]
  dsimp only
  by_cases hend : EndsEscape c
  · rw [if_pos hend]
    obtain ⟨hkeeps, hempty, hsafe⟩ :=
      termProcessEscape_spec (t := t.pushEscape c) (hpush.fits hs.toFits) hgrid rfl hlength
    have hall := hpush.trans hkeeps
    exact ⟨hall.sound hs (by rw [hempty]; decide), hall, fun hc => hsafe (hc.1 hin)⟩
  rw [if_neg hend]
  by_cases hfull : 31 ≤ (t.pushEscape c).escapeBuf.length
  · rw [if_pos hfull]
    have hall : Keeps t { t.pushEscape c with inEscape := false, escapeBuf := [] } := { hpush with }
    exact ⟨hall.sound hs (Nat.zero_le 30), hall, fun _ => { hgrid with }⟩
  · rw [if_neg hfull]
    exact ⟨hpush.sound hs (by omega), hpush, fun _ => hgrid⟩

theorem advance_spec (h : t.Fits) (hy : 0 ≤ t.cursorY ∧ t.cursorY < t.rows) (x : ℤ) :
    let u := if t.cols ≤ x then termNewline { t with cursorX := x } else { t with cursorX := x }
    Keeps t u ∧ (0 ≤ x → u.OnGrid) ∧ u.escapeBuf = t.escapeBuf ∧ u.inEscape = t.inEscape := by
  have hkeeps : Keeps t { t with cursorX := x } := { Keeps.refl t with }
  dsimp only
  by_cases hend : t.cols ≤ x
  · rw [if_pos hend]
    obtain ⟨hnew, hgrid, hescape⟩ := termNewline_spec (hkeeps.fits h) hy
    exact ⟨hkeeps.trans hnew, fun _ => hgrid, hescape⟩
  · rw [if_neg hend]
    exact ⟨hkeeps, fun hx => ⟨hx, not_le.mp hend, hy.1, hy.2⟩, rfl, rfl⟩

theorem termPutc_plain (hs : t.Sound) (hg : t.OnGrid) (hin : t.inEscape = false) (c : UInt8) :
    (t.termPutc c).Sound ∧ Keeps t (t.termPutc c) ∧ (t.PutcSafe c → (t.termPutc c).OnGrid) := by
  have hsize := hs.size
  have hdims := hs.dims_le
  have hkeeps := Keeps.refl t
  have hescape := hs.escape
  obtain ⟨hx₀, hx₁, hy₀, hy₁⟩ := hg
  unfold termPutc
  rw [if_neg (by rw [hin]; exact Bool.false_ne_true)]
  by_cases hesc : c = 27
  · rw [if_pos hesc]
    have hall : Keeps t { t with inEscape := true, escapeBuf := [] } := { hkeeps with }
    exact ⟨hall.sound hs (Nat.zero_le 30), hall, fun _ => ⟨hx₀, hx₁, hy₀, hy₁⟩⟩
  rw [if_neg hesc]
  by_cases hnl : c = '\n'.toUInt8
  · rw [if_pos hnl]
    obtain ⟨hnew, hgrid, hbuf, -⟩ := termNewline_spec hs.toFits ⟨hy₀, hy₁⟩
    exact ⟨hnew.sound hs (hbuf ▸ hescape), hnew, fun _ => hgrid⟩
  rw [if_neg hnl]
  by_cases hcr : c = '\r'.toUInt8
  · rw [if_pos hcr]
    have hall : Keeps t { t with cursorX := 0 } := { hkeeps with }
    exact ⟨hall.sound hs hescape, hall, fun _ => ⟨le_rfl, hs.cols_pos, hy₀, hy₁⟩⟩
  rw [if_neg hcr]
  by_cases hbs : c = 8
  · rw [if_pos hbs]
    by_cases hpos : 0 < t.cursorX
    · rw [if_pos hpos]
      have hall : Keeps t { t with cursorX := t.cursorX - 1 } := { hkeeps with }
      exact ⟨hall.sound hs hescape, hall, fun _ => ⟨by dsimp only; omega, by dsimp only; omega, hy₀, hy₁⟩⟩
    · rw [if_neg hpos]
      exact ⟨hs, hkeeps, fun _ => ⟨hx₀, hx₁, hy₀, hy₁⟩⟩
  rw [if_neg hbs]
  by_cases htab : c = '\t'.toUInt8
  · rw [if_pos htab]
    let x := toInt (t.cursorX + 8)
    obtain ⟨hall, hgrid, hbuf, -⟩ := advance_spec hs.toFits ⟨hy₀, hy₁⟩ (x - x % 8)
    refine ⟨hall.sound hs (le_of_eq_of_le (congrArg List.length hbuf) hescape), hall, fun hsafe => hgrid ?_⟩
    have hfit := hsafe.2 hin htab
    have hx : x = t.cursorX + 8 := toInt_of_isInt ⟨by omega, by omega⟩
    omega
  rw [if_neg htab]
  by_cases hprint : 32 ≤ c ∧ c < 127
  · rw [if_pos hprint]
    have hidx := (hs.toFits.index ⟨hy₀, hy₁⟩ ⟨hx₀, hx₁⟩).2
    have hpaints : Paints t (t.writeCell (t.index t.cursorY t.cursorX) c t.currentFg t.currentBg) :=
      writeCell_paints hidx
    have hnext : toInt (t.cursorX + 1) = t.cursorX + 1 := toInt_of_isInt ⟨by omega, by omega⟩
    obtain ⟨hadv, hgrid, hbuf, -⟩ := advance_spec (hpaints.fits hs.toFits) ⟨hy₀, hy₁⟩
      (toInt (t.cursorX + 1))
    have hall := hpaints.keeps.trans hadv
    exact ⟨hall.sound hs (le_of_eq_of_le (congrArg List.length hbuf) hescape), hall,
      fun _ => hgrid (by omega)⟩
  · rw [if_neg hprint]
    exact ⟨hs, hkeeps, fun _ => ⟨hx₀, hx₁, hy₀, hy₁⟩⟩

theorem termPutc_spec (hs : t.Sound) (hg : t.OnGrid) (c : UInt8) :
    (t.termPutc c).Sound ∧ Keeps t (t.termPutc c) ∧ (t.PutcSafe c → (t.termPutc c).OnGrid) := by
  cases hin : t.inEscape with
  | true => exact termPutc_escape hs hg hin c
  | false => exact termPutc_plain hs hg hin c

/-- The escape sequence that the output is in, as far as it has come. -/
def escapeSeq (t : Terminal) : Option (List UInt8) := if t.inEscape then some t.escapeBuf else none

def escapeNext : Option (List UInt8) → UInt8 → Option (List UInt8)
  | none, c => if c = 27 then some [] else none
  | some buf, c => if EndsEscape c ∨ 31 ≤ buf.length + 1 then none else some (buf ++ [c])

theorem escapeSeq_of_not (hin : t.inEscape = false) : t.escapeSeq = none := by
  rw [escapeSeq, hin]
  rfl

theorem escapeSeq_of_inEscape (hin : t.inEscape = true) : t.escapeSeq = some t.escapeBuf := by
  rw [escapeSeq, if_pos hin]

theorem termPutc_escapeSeq (hs : t.Sound) (hg : t.OnGrid) (c : UInt8) :
    (t.termPutc c).escapeSeq = escapeNext t.escapeSeq c := by
  have hy : 0 ≤ t.cursorY ∧ t.cursorY < t.rows := ⟨hg.y_nonneg, hg.y_lt⟩
  unfold termPutc
  by_cases hin : t.inEscape = true
  · have hlength : (t.pushEscape c).escapeBuf.length = t.escapeBuf.length + 1 := List.length_append
    rw [if_pos hin, escapeSeq_of_inEscape hin, escapeNext]
    dsimp only
    rw [hlength]
    by_cases hend : EndsEscape c
    · rw [if_pos hend, if_pos (.inl hend), termProcessEscape, if_neg (by omega)]
      rfl
    rw [if_neg hend]
    by_cases hfull : 31 ≤ t.escapeBuf.length + 1
    · rw [if_pos hfull, if_pos (.inr hfull)]
      rfl
    · rw [if_neg hfull, if_neg (not_or.mpr ⟨hend, hfull⟩)]
      exact escapeSeq_of_inEscape hin
  rw [if_neg hin]
  have hin : t.inEscape = false := Bool.eq_false_of_not_eq_true hin
  rw [escapeSeq_of_not hin, escapeNext]
  by_cases hesc : c = 27
  · rw [if_pos hesc, if_pos hesc]
    rfl
  rw [if_neg hesc, if_neg hesc]
  refine escapeSeq_of_not ?_
  have hfits : (t.writeCell (t.index t.cursorY t.cursorX) c t.currentFg t.currentBg).Fits :=
    ⟨hs.cols_pos, hs.rows_pos, hs.size⟩
  split_ifs
  · exact (termNewline_spec hs.toFits hy).2.2.2.trans hin
  · exact hin
  · exact hin
  · exact hin
  · exact (advance_spec hs.toFits hy (toInt (t.cursorX + 8) - toInt (t.cursorX + 8) % 8)).2.2.2.trans hin
  · exact (advance_spec hfits hy (toInt (t.cursorX + 1))).2.2.2.trans hin
  · exact hin

theorem termPuts_spec (hs : t.Sound) (hg : t.OnGrid) {str : List UInt8} (hsafe : t.PutsSafe str) :
    (t.termPuts str).Sound ∧ Keeps t (t.termPuts str) ∧ (t.termPuts str).OnGrid := by
  induction str generalizing t with
  | nil => exact ⟨hs, .refl t, hg⟩
  | cons c str ih =>
    obtain ⟨hc, hstr⟩ := hsafe
    obtain ⟨hs', hkeeps, hg'⟩ := termPutc_spec hs hg c
    obtain ⟨hsound, hrest, hgrid⟩ := ih hs' (hg' hc) hstr
    exact ⟨hsound, hkeeps.trans hrest, hgrid⟩

/-- Bytes that hold no tabulator and no escape sequence with the command `B` or `C`. -/
def quiet : Option (List UInt8) → List UInt8 → Bool
  | _, [] => true
  | none, c :: str => c ≠ '\t'.toUInt8 && quiet (escapeNext none c) str
  | some buf, c :: str =>
    c ≠ 'B'.toUInt8 && c ≠ 'C'.toUInt8 && quiet (escapeNext (some buf) c) str

theorem putsSafe_of_quiet (hs : t.Sound) (hg : t.OnGrid) {str : List UInt8}
    (h : quiet t.escapeSeq str = true) : t.PutsSafe str := by
  induction str generalizing t with
  | nil => exact trivial
  | cons c str ih =>
    obtain ⟨hs', -, hg'⟩ := termPutc_spec hs hg c
    by_cases hin : t.inEscape = true
    · rw [escapeSeq_of_inEscape hin, quiet, ← escapeSeq_of_inEscape hin, ← termPutc_escapeSeq hs hg] at h
      obtain ⟨⟨hB, hC⟩, hstr⟩ : (c ≠ 'B'.toUInt8 ∧ c ≠ 'C'.toUInt8) ∧
          quiet (t.termPutc c).escapeSeq str = true := by simpa using h
      have hc : t.PutcSafe c := ⟨fun _ _ => ⟨fun hc => absurd hc hB, fun hc => absurd hc hC⟩,
        fun hout => absurd (hin.symm.trans hout) (by decide)⟩
      exact ⟨hc, ih hs' (hg' hc) hstr⟩
    · have hout : t.inEscape = false := Bool.eq_false_of_not_eq_true hin
      rw [escapeSeq_of_not hout, quiet, ← escapeSeq_of_not hout, ← termPutc_escapeSeq hs hg] at h
      obtain ⟨htab, hstr⟩ : c ≠ '\t'.toUInt8 ∧ quiet (t.termPutc c).escapeSeq str = true := by
        simpa using h
      have hc : t.PutcSafe c := ⟨fun hf => absurd hf hin, fun _ hc => absurd hc htab⟩
      exact ⟨hc, ih hs' (hg' hc) hstr⟩

/-! ## Keys -/

theorem clearScreen_sound (hs : t.Sound) :
    t.clearScreen.Sound ∧ Keeps t t.clearScreen ∧ t.clearScreen.OnGrid := by
  obtain ⟨hkeeps, hgrid, hbuf⟩ := clearScreen_spec hs.toFits
  exact ⟨hkeeps.sound hs (hbuf ▸ hs.escape), hkeeps, hgrid⟩

theorem termExecuteCommand_spec (hs : t.Sound) (hg : t.OnGrid) {out : List UInt8 → List UInt8}
    {cmd : List UInt8} (hsafe : t.ExecuteSafe out cmd) :
    (t.termExecuteCommand out cmd).Sound ∧ Keeps t (t.termExecuteCommand out cmd) ∧
      (t.termExecuteCommand out cmd).OnGrid := by
  unfold ExecuteSafe at hsafe
  unfold termExecuteCommand
  dsimp only at hsafe ⊢
  split
  · exact ⟨hs, .refl t, hg⟩
  next hempty =>
  split
  · exact clearScreen_sound hs
  · next hclear => exact termPuts_spec hs hg (hsafe hempty hclear)

theorem prompt_spec (hs : t.Sound) (hg : t.OnGrid) (hsafe : t.PutsSafe prompt) :
    let u := { t.termPuts prompt with inputBuf := [] }
    Sound u ∧ Keeps t u ∧ OnGrid u := by
  obtain ⟨hsound, hkeeps, hgrid⟩ := termPuts_spec hs hg hsafe
  generalize t.termPuts prompt = v at hsound hkeeps hgrid ⊢
  exact ⟨{ hsound with }, { hkeeps with }, { hgrid with }⟩

theorem termHandleKey_spec (hs : t.Sound) (hg : t.OnGrid) {out : List UInt8 → List UInt8} {key : ℤ}
    (hsafe : t.KeySafe out key) :
    (t.termHandleKey out key).Sound ∧ Keeps t (t.termHandleKey out key) ∧
      (t.termHandleKey out key).OnGrid := by
  unfold KeySafe at hsafe
  unfold termHandleKey
  by_cases henter : key = 10 ∨ key = 13
  · rw [if_pos henter] at hsafe ⊢
    obtain ⟨hnl, hcmd, hprompt⟩ := hsafe
    obtain ⟨hs₁, hk₁, hg₁⟩ := termPutc_spec hs hg '\n'.toUInt8
    have hg₁ := hg₁ hnl
    dsimp only
    -- the command, if there is one
    have hexecuted : ∀ u, u = (if (t.termPutc '\n'.toUInt8).inputBuf = [] then t.termPutc '\n'.toUInt8
        else (t.termPutc '\n'.toUInt8).termExecuteCommand out (t.termPutc '\n'.toUInt8).inputBuf) →
        u.Sound ∧ Keeps t u ∧ u.OnGrid := by
      rintro u rfl
      split
      · exact ⟨hs₁, hk₁, hg₁⟩
      · next hinput =>
        obtain ⟨hs₂, hk₂, hg₂⟩ := termExecuteCommand_spec hs₁ hg₁ (hcmd hinput)
        exact ⟨hs₂, hk₁.trans hk₂, hg₂⟩
    obtain ⟨hs₂, hk₂, hg₂⟩ := hexecuted _ rfl
    obtain ⟨hs₃, hk₃, hg₃⟩ := prompt_spec hs₂ hg₂ hprompt
    exact ⟨hs₃, hk₂.trans hk₃, hg₃⟩
  rw [if_neg henter] at hsafe ⊢
  by_cases herase : key = 8 ∨ key = 127
  · rw [if_pos herase] at hsafe ⊢
    by_cases hinput : t.inputBuf = []
    · rw [if_pos hinput]
      exact ⟨hs, .refl t, hg⟩
    rw [if_neg hinput]
    have hpos := hsafe hinput
    have hx := hg.x_lt
    have hdims := hs.dims_le
    have hsize := hs.size
    have hback : toInt (t.cursorX - 1) = t.cursorX - 1 := toInt_of_isInt ⟨by omega, by omega⟩
    dsimp only
    rw [hback]
    have hg' : OnGrid { t with inputBuf := t.inputBuf.dropLast, cursorX := t.cursorX - 1 } :=
      ⟨Int.sub_nonneg_of_le hpos, (sub_one_lt t.cursorX).trans hx, hg.y_nonneg, hg.y_lt⟩
    have hs' : Sound { t with inputBuf := t.inputBuf.dropLast, cursorX := t.cursorX - 1 } := { hs with }
    have hpaints := writeChar_paints (c := ' '.toUInt8)
      (hs'.toFits.index ⟨hg'.y_nonneg, hg'.y_lt⟩ ⟨hg'.x_nonneg, hg'.x_lt⟩).2
    exact ⟨hpaints.sound hs', { hpaints.keeps with }, hpaints.onGrid hg'⟩
  rw [if_neg herase] at hsafe ⊢
  by_cases hprint : 32 ≤ key ∧ key < 127
  · rw [if_pos hprint]
    by_cases hroom : t.inputBuf.length < 255
    · rw [if_pos hroom]
      have hs' : Sound { t with inputBuf := t.inputBuf ++ [.ofNat key.toNat] } := { hs with }
      have hg' : OnGrid { t with inputBuf := t.inputBuf ++ [.ofNat key.toNat] } := { hg with }
      obtain ⟨hsound, hkeeps, hgrid⟩ := termPutc_spec hs' hg' (.ofNat key.toNat)
      exact ⟨hsound, { hkeeps with }, hgrid (hsafe hprint hroom)⟩
    · rw [if_neg hroom]
      exact ⟨hs, .refl t, hg⟩
  · rw [if_neg hprint]
    exact ⟨hs, .refl t, hg⟩

theorem run_spec (hs : t.Sound) (hg : t.OnGrid) {st : TermStep} (hsafe : t.Safe st) :
    (t.run st).Sound ∧ Keeps t (t.run st) ∧ (t.run st).OnGrid := by
  cases st with
  | putc c =>
    obtain ⟨hsound, hkeeps, hgrid⟩ := termPutc_spec hs hg c
    exact ⟨hsound, hkeeps, hgrid hsafe⟩
  | key out key => exact termHandleKey_spec hs hg hsafe

end Terminal

section Create

variable {cells prev : Cells} {x y cols rows : ℤ}

theorem quiet_welcome : Terminal.quiet none welcome = true := by
  decide +kernel

theorem termCreate_spec (cells prev : Cells) (x y : ℤ) (hcols : 1 ≤ cols) (hrows : 1 ≤ rows)
    (hfit : rows * cols < 2 ^ 31) :
    (termCreate cells prev x y cols rows).Sound ∧ (termCreate cells prev x y cols rows).OnGrid ∧
      (termCreate cells prev x y cols rows).cols = cols ∧
      (termCreate cells prev x y cols rows).rows = rows ∧
      (termCreate cells prev x y cols rows).fullRefresh = true ∧
      (termCreate cells prev x y cols rows).lastCursorVisible = false := by
  let t : Terminal :=
    { cells := cells
      prev := prev
      cols := cols
      rows := rows
      contentX := x
      contentY := y
      lastContentX := x
      lastContentY := y }
  have hf : t.Fits := ⟨hcols, hrows, hfit⟩
  have hs : t.Sound := ⟨hf, Nat.zero_le 30, fun a ha => absurd ha List.not_mem_nil⟩
  have hg : t.OnGrid := ⟨le_rfl, hcols, le_rfl, hrows⟩
  obtain ⟨cells', fg, bg, l, hclear, hl⟩ := Terminal.clearLines_paints hf
  rw [termCreate, hclear]
  let u : Terminal := { t with cells := cells', currentFg := fg, currentBg := bg
                               accesses := t.accesses ++ l, prev := prev.copy cells' (toInt (cols * rows)) }
  have hus : u.Sound := ⟨⟨hcols, hrows, hfit⟩, Nat.zero_le 30, hl⟩
  have hug : u.OnGrid := { hg with }
  have hsafe : u.PutsSafe welcome := Terminal.putsSafe_of_quiet hus hug quiet_welcome
  obtain ⟨hsound, hkeeps, hgrid⟩ := Terminal.termPuts_spec hus hug hsafe
  exact ⟨hsound, hgrid, hkeeps.cols, hkeeps.rows, hkeeps.fullRefresh rfl, hkeeps.lastCursorVisible⟩

/-- The cursor stays on the grid, and every index in its array, in every run whose steps are all safe. -/
theorem cursor_on_grid {steps : List TermStep} {t : Terminal} (hcols : 1 ≤ cols) (hrows : 1 ≤ rows)
    (hfit : rows * cols < 2 ^ 31)
    (h : Exec (fun t st t' => t.Safe st ∧ t' = t.run st) (termCreate cells prev x y cols rows) steps t) :
    (t.cols = cols ∧ t.rows = rows) ∧ t.OnGrid ∧ ∀ a ∈ t.accesses, a.Inside rows cols := by
  obtain ⟨hs₀, hg₀, hc₀, hr₀, -⟩ := termCreate_spec cells prev x y hcols hrows hfit
  obtain ⟨hs, hg, hc, hr⟩ := h.invariant
    (I := fun t => t.Sound ∧ t.OnGrid ∧ t.cols = cols ∧ t.rows = rows)
    (fun t st t' ⟨hs, hg, hc, hr⟩ ⟨hsafe, heq⟩ => by
      obtain ⟨hs', hkeeps, hg'⟩ := Terminal.run_spec hs hg hsafe
      subst heq
      exact ⟨hs', hg', hkeeps.cols.trans hc, hkeeps.rows.trans hr⟩) ⟨hs₀, hg₀, hc₀, hr₀⟩
  exact ⟨⟨hc, hr⟩, hg, hr ▸ hc ▸ hs.inside⟩

def unwritten : Cells := ⟨fun _ => 0, fun _ => 0, fun _ => 0⟩

theorem exec_putc {t : Terminal} {str : List UInt8} (h : t.PutsSafe str) :
    Exec (fun t st t' => t.Safe st ∧ t' = t.run st) t (str.map .putc) (t.termPuts str) := by
  induction str generalizing t with
  | nil => exact .nil t
  | cons c str ih => exact .cons ⟨h.1, rfl⟩ (ih h.2)

/-- The cursor goes to the last row by an escape sequence, and two more lines scroll the terminal. -/
def scrolled : Terminal := (termCreate unwritten unwritten 0 0 60 18).termPuts (bytes "\x1b[17B\n\n")

theorem cursor_on_grid_scroll : ((scrolled.run (.key id 97)).run (.key id 127)).OnGrid := by
  have hputs := exec_putc (show (termCreate unwritten unwritten 0 0 60 18).PutsSafe (bytes "\x1b[17B\n\n") by
    decide +kernel)
  have hkey : scrolled.Safe (.key id 97) := by
    rw [Terminal.Safe, Terminal.KeySafe, if_neg (by decide), if_neg (by decide)]
    exact fun _ _ => by decide +kernel
  have herase : (scrolled.run (.key id 97)).Safe (.key id 127) := by
    rw [Terminal.Safe, Terminal.KeySafe, if_neg (by decide), if_pos (by decide)]
    exact fun _ => by decide +kernel
  have hkeys := hputs.append (.cons ⟨hkey, rfl⟩ (.cons ⟨herase, rfl⟩ (.nil _)))
  exact (cursor_on_grid (by decide) (by decide) (by decide) hkeys).2.1

/-- A line that fills the columns of the terminal ends on the next one, and the key that erases its last
character leaves the grid there. -/
theorem cursor_leaves_grid :
    ¬∀ (cells prev : Cells) (x y cols rows : ℤ) (steps : List TermStep) (t : Terminal),
      1 ≤ cols → 1 ≤ rows →
      Exec (fun t st t' => t' = t.run st) (termCreate cells prev x y cols rows) steps t →
      t.OnGrid ∧ ∀ a ∈ t.accesses, a.Inside rows cols := by
  intro h
  have hrun := Exec.foldl Terminal.run (termCreate unwritten unwritten 0 0 60 18)
    (List.replicate 50 (.key id 97) ++ [.key id 127])
  have hgrid := (h unwritten unwritten 0 0 60 18 _ _ (by decide) (by decide) hrun).1
  have hneg : ¬0 ≤ ((List.replicate 50 (TermStep.key id 97) ++ [TermStep.key id 127]).foldl Terminal.run
      (termCreate unwritten unwritten 0 0 60 18)).cursorX := by decide +kernel
  exact hneg hgrid.x_nonneg

-- an escape sequence that moves the cursor down past the range of an `int`
example : ((termCreate unwritten unwritten 0 0 60 18).termPuts (bytes "\x1b[2147483647B")).cursorY =
    -2 ^ 31 + 2 := by decide +kernel

end Create

end GcAos.Gui.Term
