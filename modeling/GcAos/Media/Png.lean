import GcAos.Lib.CInt
import GcAos.Lib.Raster
import Mathlib.Data.List.GetD
import Mathlib.Tactic.Common
import Mathlib.Tactic.Ring

/-! The pixels of a PNG file, from its decompressed image data: `kernel/media/tpng.c`, from the iterator and
the filters of the rows to the seven passes of interlaced files. -/

namespace GcAos.Media
open Lib

/-- Four bytes of `rgba`, or an entry of the palette. -/
structure PngPixel where
  r : UInt8
  g : UInt8
  b : UInt8
  a : UInt8
  deriving DecidableEq

/-- What the chunks before the image data have set. The sizes are `int`s; a `char` is unsigned on ARM64. -/
structure PngImage where
  w : ℤ
  h : ℤ
  colorDepth : ℕ
  colorType : ℕ
  interlaceMethod : ℕ
  transparentGray : ℤ
  transparentRed : ℤ
  transparentGreen : ℤ
  transparentBlue : ℤ
  palette : ℕ → PngPixel
  -- the gray levels of raw values of 2 and 4 bits, which are computed in floating point
  level : ℕ → UInt8 → UInt8

namespace PngImage

variable (img : PngImage)

/-- `bpp` before it is made bytes. -/
def bitsPerPixel : ℕ :=
  (if img.colorType = 2 ∨ img.colorType = 6 then img.colorDepth * 3 else img.colorDepth) +
    if img.colorType &&& 4 ≠ 0 then img.colorDepth else 0

def getBytesPerPixel : ℕ := if img.bitsPerPixel < 8 then 1 else img.bitsPerPixel / 8

def getBytesPerRow (width : ℤ) : ℕ :=
  let bpp := toInt (img.bitsPerPixel * width)
  if bpp < 8 then 1 else if bpp % 8 ≠ 0 then (bpp / 8 + 1).toNat else (bpp / 8).toNat

/-- The pixels of the buffer that `IHDR` asks for. -/
def bufferPixels : ℤ := toInt (img.w * img.h)

/-! Pixels. -/

/-- The raw value of pixel `i` when there are several to a byte. -/
def rawVal (row : ℕ → UInt8) (i : ℕ) : UInt8 :=
  row (img.colorDepth * i / 8) >>> UInt8.ofNat (8 - img.colorDepth - img.colorDepth * i % 8) &&&
    UInt8.ofNat (2 ^ img.colorDepth - 1)

/-- `rawVal` of two bytes, as the source has it. -/
def rawVal16 (row : ℕ → UInt8) (i : ℕ) : ℤ := (row i).toNat * 0xFF + (row (i + 1)).toNat

def grayPixel (value : UInt8) (raw : ℤ) : PngPixel :=
  ⟨value, value, value, if img.transparentGray = raw then 0 else 255⟩

def rgbPixel (r g b : UInt8) (rawR rawG rawB : ℤ) : PngPixel :=
  ⟨r, g, b, if img.transparentRed = rawR ∧ img.transparentGreen = rawG ∧ img.transparentBlue = rawB then 0
    else 255⟩

/-- Pixel `i` of `tpng_expand_row`, which leaves what is there when it does not know the format. In a row
whose bits are an `int` no index wraps. -/
def expandPixel (row : ℕ → UInt8) (i : ℕ) (expanded : PngPixel) : PngPixel :=
  match img.colorType, img.colorDepth with
  | 0, 1 => img.grayPixel (img.rawVal row i * 255) (img.rawVal row i).toNat
  | 0, 2 => img.grayPixel (img.level 2 (img.rawVal row i)) (img.rawVal row i).toNat
  | 0, 4 => img.grayPixel (img.level 4 (img.rawVal row i)) (img.rawVal row i).toNat
  | 0, 8 => img.grayPixel (row i) (row i).toNat
  | 0, 16 => img.grayPixel (row (i * 2)) (rawVal16 row (i * 2))
  | 2, 8 => img.rgbPixel (row (i * 3)) (row (i * 3 + 1)) (row (i * 3 + 2)) (row (i * 3)).toNat
      (row (i * 3 + 1)).toNat (row (i * 3 + 2)).toNat
  | 2, 16 => img.rgbPixel (row (i * 6)) (row (i * 6 + 2)) (row (i * 6 + 4)) (rawVal16 row (i * 6))
      (rawVal16 row (i * 6 + 2)) (rawVal16 row (i * 6 + 4))
  | 3, 1 | 3, 2 | 3, 4 => img.palette (img.rawVal row i).toNat
  | 3, 8 => img.palette (row i).toNat
  | 4, 8 => ⟨row (i * 2), row (i * 2), row (i * 2), row (i * 2 + 1)⟩
  | 4, 16 => ⟨row (i * 4), row (i * 4), row (i * 4), row (i * 4 + 2)⟩
  | 6, 8 => ⟨row (i * 4), row (i * 4 + 1), row (i * 4 + 2), row (i * 4 + 3)⟩
  | 6, 16 => ⟨row (i * 8), row (i * 8 + 2), row (i * 8 + 4), row (i * 8 + 6)⟩
  | _, _ => expanded

def rowPixels (rowPixelWidth : ℤ) : ℕ :=
  if img.colorType = 0 ∨ img.colorType = 3 then
    (img.colorDepth * rowPixelWidth % 2 ^ 32).toNat / img.colorDepth
  else (rowPixelWidth % 2 ^ 32).toNat

def expandRow (row : ℕ → UInt8) (expanded : ℕ → PngPixel) (rowPixelWidth : ℤ) : ℕ → PngPixel :=
  fun i => if i < img.rowPixels rowPixelWidth then img.expandPixel row i (expanded i) else expanded i

end PngImage

/-! Filters. -/

def paethPredictor (a b c : ℤ) : ℤ :=
  let p := a + b - c
  let pa := (p - a).natAbs
  let pb := (p - b).natAbs
  let pc := (p - c).natAbs
  if pa ≤ pb ∧ pa ≤ pc then a else if pb ≤ pc then b else c

def paeth (a b c : UInt8) : UInt8 := UInt8.ofInt (paethPredictor a.toNat b.toNat c.toNat)

/-- The bytes from `i` on, `n` of them, one after the other. -/
def eachByte (f : (ℕ → UInt8) → ℕ → UInt8) (i n : ℕ) (row : ℕ → UInt8) : ℕ → UInt8 :=
  (List.range' i n).foldl (fun row i => Function.update row i (f row i)) row

def unfilterRow (thisRow prevRow : ℕ → UInt8) (rowBytes bpp filter : ℕ) : ℕ → UInt8 :=
  match filter with
  | 1 => eachByte (fun row i => row i + row (i - bpp)) bpp (rowBytes - bpp) thisRow
  | 2 => eachByte (fun row i => row i + prevRow i) 0 rowBytes thisRow
  | 3 => eachByte (fun row i => row i + UInt8.ofNat (((row (i - bpp)).toNat + (prevRow i).toNat) / 2)) bpp
      (rowBytes - bpp)
      (eachByte (fun row i => row i + UInt8.ofNat ((0 + (prevRow i).toNat) / 2)) 0 bpp thisRow)
  | 4 => eachByte (fun row i => row i + paeth (row (i - bpp)) (prevRow i) (prevRow (i - bpp))) bpp
      (rowBytes - bpp)
      (eachByte (fun row i => row i + paeth 0 (prevRow i) 0) 0 bpp thisRow)
  | _ => thisRow

/-! Rows. -/

/-- `tpng_iter_t`, whose size is the length of the data as a `uint32_t`. -/
structure PngIter where
  data : List UInt8
  iter : ℕ

/-- `tpng_iter_advance`: what the pointer leads to. -/
def iterAdvance (t : PngIter) (size : ℕ) : Option ((ℕ → UInt8) × PngIter) :=
  if size = 0 then none
  else if (t.iter + size) % 2 ^ 32 ≤ t.data.length % 2 ^ 32 then
    some (fun i => t.data.getD (t.iter + i) 0, { t with iter := (t.iter + size) % 2 ^ 32 })
  else none

def readByte (t : PngIter) : UInt8 × PngIter :=
  match iterAdvance t 1 with
  | some r => (r.1 0, r.2)
  | none => (0, t)

/-- The buffers of the decoder, which it has been given; `rgba` counts pixels from its start. -/
structure PngRows where
  iter : PngIter
  prevRow : ℕ → UInt8
  thisRow : ℕ → UInt8
  rowExpanded : ℕ → PngPixel
  rgba : ℤ → PngPixel

/-- The first `count` pixels of a row go to the places in the image. -/
def writeRow (place : ℕ → ℤ) (expanded : ℕ → PngPixel) (count : ℕ) (rgba : ℤ → PngPixel) : ℤ → PngPixel :=
  (List.range count).foldl (fun rgba i => Function.update rgba (place i) (expanded i)) rgba

/-- The loop over the rows, `n` of them from `row` on, of an image or of a pass. It ends early when there is
no more data. -/
def decodeRows (img : PngImage) (place : ℕ → ℕ → ℤ) (count : ℕ) (width : ℤ) : ℕ → ℕ → PngRows → PngRows
  | 0, _, s => s
  | n + 1, row, s =>
    let rowBytes := img.getBytesPerRow width
    let filter := readByte s.iter
    match iterAdvance filter.2 rowBytes with
    | none => { s with iter := filter.2 }
    | some (data, iter) =>
      let thisRow := unfilterRow (fun i => if i < rowBytes then data i else s.thisRow i) s.prevRow
        rowBytes img.getBytesPerPixel filter.1.toNat
      let rowExpanded := img.expandRow thisRow s.rowExpanded width
      decodeRows img place count width n (row + 1) {
        iter
        prevRow := thisRow
        thisRow
        rowExpanded
        rgba := writeRow (place row) rowExpanded count s.rgba }

/-! Interlaced images. -/

/-- The places in a box of 8 by 8 pixels that come with each pass. -/
def adam7PassBytes (pass : ℕ) : List ℕ :=
  [[0],
   [4],
   [32, 36],
   [2, 6, 34, 38],
   [16, 18, 20, 22, 48, 50, 52, 54],
   [1, 3, 5, 7, 17, 19, 21, 23, 33, 35, 37, 39, 49, 51, 53, 55],
   [8, 9, 10, 11, 12, 13, 14, 15, 24, 25, 26, 27, 28, 29, 30, 31,
    40, 41, 42, 43, 44, 45, 46, 47, 56, 57, 58, 59, 60, 61, 62, 63]].getD pass []

def adam7PassDims (pass : ℕ) : ℕ × ℕ :=
  [(1, 1), (1, 1), (2, 1), (2, 2), (4, 2), (4, 4), (8, 4)].getD pass (0, 0)

/-- One wrap at the end does what one at each sum and product does. -/
def adam7SubpixelToPixel (img : PngImage) (subx suby pass : ℕ) : ℤ :=
  let x8 := subx % (adam7PassDims pass).1
  let y8 := suby % (adam7PassDims pass).2
  let adamByte := (adam7PassBytes pass).getD ((adam7PassDims pass).1 * y8 + x8) 0
  let x := adamByte % 8 + 8 * (subx / (adam7PassDims pass).1)
  let y := adamByte / 8 + 8 * (suby / (adam7PassDims pass).2)
  toInt (x + y * img.w)

/-- The store of `tpng_adam7_pass_row_to_image`, at `pixel * 4`. -/
def adam7Place (img : PngImage) (subx suby pass : ℕ) : ℤ :=
  toInt (adam7SubpixelToPixel img subx suby pass * 4) / 4

/-- The inner loop: the offsets in a box that are inside. It returns when one is not. -/
def boxSide (side i : ℤ) : List ℕ → ℕ → Except ℕ ℕ
  | [], n => .ok n
  | offset :: offsets, n => if toInt (i + offset) < side then boxSide side i offsets (n + 1) else .error n

/-- The outer loop, over the boxes. The first argument counts its turns: as many as there are pixels are
enough where `i` does not wrap. -/
def passSide (offsets : List ℕ) (side : ℤ) : ℕ → ℤ → ℕ → ℕ
  | 0, _, n => n
  | turns + 1, i, n =>
    if i < side then
      match boxSide side i offsets n with
      | .ok n => passSide offsets side turns (toInt (i + 8)) n
      | .error n => n
    else n

def adam7GetPassWidth (img : PngImage) (pass : ℕ) : ℕ :=
  passSide ((List.range (adam7PassDims pass).1).map fun n => (adam7PassBytes pass).getD n 0 % 8) img.w
    img.w.toNat 0 0

def adam7GetPassHeight (img : PngImage) (pass : ℕ) : ℕ :=
  passSide ((List.range (adam7PassDims pass).2).map fun n =>
    (adam7PassBytes pass).getD (n * (adam7PassDims pass).1) 0 / 8) img.h img.h.toNat 0 0

def adam7DecodePass (img : PngImage) (s : PngRows) (pass : ℕ) : PngRows :=
  let s := { s with prevRow := fun _ => 0 }
  let passWidth := adam7GetPassWidth img pass
  if passWidth = 0 then s
  else
    decodeRows img (fun row i => adam7Place img i row pass) passWidth passWidth (adam7GetPassHeight img pass) 0 s

def adam7Decode (img : PngImage) (s : PngRows) : PngRows := (List.range 7).foldl (adam7DecodePass img) s

/-- The end of `IEND`: the decompressed data become pixels. -/
def decodeImage (img : PngImage) (data : List UInt8) (rgba : ℤ → PngPixel) : ℤ → PngPixel :=
  let s : PngRows := ⟨⟨data, 0⟩, fun _ => 0, fun _ => 0, fun _ => ⟨0, 0, 0, 0⟩, rgba⟩
  if img.interlaceMethod = 0 then
    -- `row` and what is computed with it are unsigned, and `4 * image->w` becomes a `size_t`
    (decodeRows img (fun row i => row * img.w * 4 % 2 ^ 32 / 4 + i) ((toInt (4 * img.w) % 2 ^ 64).toNat / 4)
      img.w (img.h % 2 ^ 32).toNat 0 s).rgba
  else if img.interlaceMethod = 1 then (adam7Decode img s).rgba
  else rgba

/-! The file format. -/

def left (bpp : ℕ) (row : ℕ → UInt8) (i : ℕ) : UInt8 := if i < bpp then 0 else row (i - bpp)

def predicted (filter : ℕ) (a b c : UInt8) : UInt8 :=
  match filter with
  | 1 => a
  | 2 => b
  | 3 => UInt8.ofNat ((a.toNat + b.toNat) / 2)
  | 4 => paeth a b c
  | _ => 0

def filtered (filter bpp : ℕ) (row prev : ℕ → UInt8) (i : ℕ) : UInt8 :=
  row i - predicted filter (left bpp row i) (prev i) (left bpp prev i)

/-- The data of the rows from `y` on, `n` of them; `prev` is the one before. -/
def scanlines (filters : ℕ → UInt8) (rows : ℕ → ℕ → UInt8) (rowBytes bpp : ℕ) :
    ℕ → ℕ → (ℕ → UInt8) → List UInt8
  | 0, _, _ => []
  | n + 1, y, prev =>
    filters y :: ((List.range rowBytes).map (filtered (filters y).toNat bpp (rows y) prev) ++
      scanlines filters rows rowBytes bpp n (y + 1) (rows y))

def PngImage.Supported (img : PngImage) : Prop :=
  (img.colorType, img.colorDepth) ∈
    [(0, 1), (0, 2), (0, 4), (0, 8), (0, 16), (2, 8), (2, 16), (3, 1), (3, 2), (3, 4), (3, 8), (4, 8), (4, 16),
      (6, 8), (6, 16)]

/-- The sizes of images whose `int` products do not overflow. -/
structure PngImage.Fits (img : PngImage) : Prop where
  w_pos : 0 < img.w
  h_pos : 0 < img.h
  pixels : 4 * (img.w * img.h) < 2 ^ 31
  rowBits : img.bitsPerPixel * img.w < 2 ^ 31

def adam7Pass (x y : ℕ) : ℕ :=
  ([[0, 5, 3, 5, 1, 5, 3, 5],
    [6, 6, 6, 6, 6, 6, 6, 6],
    [4, 5, 4, 5, 4, 5, 4, 5],
    [6, 6, 6, 6, 6, 6, 6, 6],
    [2, 5, 3, 5, 2, 5, 3, 5],
    [6, 6, 6, 6, 6, 6, 6, 6],
    [4, 5, 4, 5, 4, 5, 4, 5],
    [6, 6, 6, 6, 6, 6, 6, 6]].getD (y % 8) []).getD (x % 8) 0

def adam7Columns (pass : ℕ) : ℕ × ℕ :=
  [(0, 8), (4, 8), (0, 4), (2, 4), (0, 2), (1, 2), (0, 1)].getD pass (0, 0)

def adam7Rows (pass : ℕ) : ℕ × ℕ := [(0, 8), (0, 8), (4, 8), (0, 4), (2, 4), (0, 2), (1, 2)].getD pass (0, 0)

/-- How many of the lines that start at `line.1`, `line.2` apart, are before `side`. -/
def linesBefore (line : ℕ × ℕ) (side : ℕ) : ℕ := (side - line.1 + line.2 - 1) / line.2

/-- The data of a pass: none when it has no pixels in a row. -/
def passData (img : PngImage) (filters : ℕ → ℕ → UInt8) (rows : ℕ → ℕ → ℕ → UInt8) (pass : ℕ) : List UInt8 :=
  let width := linesBefore (adam7Columns pass) img.w.toNat
  if width = 0 then []
  else scanlines (filters pass) (rows pass) (img.getBytesPerRow width) img.getBytesPerPixel
    (linesBefore (adam7Rows pass) img.h.toNat) 0 fun _ => 0

/-- The pixel at `x`, `y` of an interlaced image. -/
def passPixel (img : PngImage) (rows : ℕ → ℕ → ℕ → UInt8) (x y : ℕ) : PngPixel :=
  let pass := adam7Pass x y
  img.expandPixel (rows pass (y / (adam7Rows pass).2)) (x / (adam7Columns pass).2) ⟨0, 0, 0, 0⟩

/-! Filters. -/

section filters

variable {row cur raw prev prev' : ℕ → UInt8} {filter bpp rowBytes i n : ℕ}

/-- `row` has what `raw` has up to byte `i`, and `cur` from there on. -/
def Sweeps (raw cur row : ℕ → UInt8) (i : ℕ) : Prop := (∀ j < i, row j = raw j) ∧ ∀ j, i ≤ j → row j = cur j

theorem Sweeps.refl : Sweeps raw cur cur 0 := ⟨fun j hj => absurd hj (Nat.not_lt_zero j), fun _ _ => rfl⟩

theorem Sweeps.each {f : (ℕ → UInt8) → ℕ → UInt8} (h : Sweeps raw cur row i)
    (hstep : ∀ row j, i ≤ j → j < i + n → Sweeps raw cur row j → f row j = raw j) :
    Sweeps raw cur (eachByte f i n row) (i + n) := by
  induction n generalizing i row with
  | zero => exact h
  | succ n ih =>
    show Sweeps raw cur (eachByte f (i + 1) n (Function.update row i (f row i))) _
    rw [show i + (n + 1) = i + 1 + n by omega]
    refine ih ⟨fun j hj => ?_, fun j hj => ?_⟩ fun row j hj hlt => hstep row j (by omega) (by omega)
    · obtain rfl | hne := eq_or_ne j i
      · rw [Function.update_self, hstep row j (Nat.le_refl j) (by omega) h]
      · rw [Function.update_of_ne hne, h.1 j (by omega)]
    · rw [Function.update_of_ne (by omega), h.2 j (by omega)]

theorem filtered_congr (hprev : ∀ i < rowBytes, prev i = prev' i) (hi : i < rowBytes) :
    filtered filter bpp raw prev i = filtered filter bpp raw prev' i := by
  unfold filtered
  have hleft : left bpp prev i = left bpp prev' i := by
    unfold left
    split_ifs
    · rfl
    · exact hprev _ (by omega)
  rw [hprev i hi, hleft]

theorem Sweeps.rest (g : UInt8 → UInt8 → UInt8 → UInt8) (prev : ℕ → UInt8) (hbpp : 0 < bpp)
    (hle : bpp ≤ rowBytes)
    (hcur : ∀ i < rowBytes, cur i = raw i - g (left bpp raw i) (prev i) (left bpp prev i))
    (h : Sweeps raw cur row bpp) :
    Sweeps raw cur (eachByte (fun row i => row i + g (row (i - bpp)) (prev i) (prev (i - bpp))) bpp
      (rowBytes - bpp) row) rowBytes := by
  have hend := h.each (n := rowBytes - bpp)
    (f := fun row i => row i + g (row (i - bpp)) (prev i) (prev (i - bpp))) fun row j hj hlt hrow => by
      have hbyte := hcur j (by omega)
      rw [left, left, if_neg (by omega), if_neg (by omega)] at hbyte
      show row j + g (row (j - bpp)) (prev j) (prev (j - bpp)) = raw j
      rw [hrow.2 j (Nat.le_refl j), hrow.1 (j - bpp) (by omega), hbyte, UInt8.sub_add_cancel]
  rwa [Nat.add_sub_cancel' hle] at hend

theorem Sweeps.first (g : UInt8 → UInt8 → UInt8 → UInt8) (hle : bpp ≤ rowBytes)
    (hcur : ∀ i < rowBytes, cur i = raw i - g (left bpp raw i) (prev i) (left bpp prev i)) :
    Sweeps raw cur (eachByte (fun row i => row i + g 0 (prev i) 0) 0 bpp cur) bpp := by
  have hend : Sweeps raw cur (eachByte (fun row i => row i + g 0 (prev i) 0) 0 bpp cur) (0 + bpp) := by
    refine Sweeps.refl.each fun row j _ hlt hrow => ?_
    have hbyte := hcur j (by omega)
    rw [left, left, if_pos (by omega), if_pos (by omega)] at hbyte
    rw [hrow.2 j (Nat.le_refl j), hbyte, UInt8.sub_add_cancel]
  rwa [Nat.zero_add] at hend

theorem Sweeps.above (hcur : ∀ i < rowBytes, cur i = raw i - prev i) :
    Sweeps raw cur (eachByte (fun row i => row i + prev i) 0 rowBytes cur) rowBytes := by
  have hend : Sweeps raw cur (eachByte (fun row i => row i + prev i) 0 rowBytes cur) (0 + rowBytes) := by
    refine Sweeps.refl.each fun row j _ hlt hrow => ?_
    rw [hrow.2 j (Nat.le_refl j), hcur j (by omega), UInt8.sub_add_cancel]
  rwa [Nat.zero_add] at hend

theorem unfilterRow_filtered (hbpp : 0 < bpp) (hle : bpp ≤ rowBytes)
    (hcur : ∀ i < rowBytes, cur i = filtered filter bpp raw prev i) :
    Sweeps raw cur (unfilterRow cur prev rowBytes bpp filter) rowBytes := by
  unfold filtered at hcur
  match filter with
  | 0 => exact ⟨fun i hi => (hcur i hi).trans (UInt8.sub_zero _), fun _ _ => rfl⟩
  | 1 =>
    have hstart : Sweeps raw cur cur bpp := by
      refine ⟨fun j hj => ?_, fun _ _ => rfl⟩
      rw [hcur j (by omega), left, if_pos hj]
      exact UInt8.sub_zero _
    exact hstart.rest (fun a _ _ => a) prev hbpp hle hcur
  | 2 => exact Sweeps.above hcur
  | 3 =>
    have hstart := Sweeps.first (fun a b _ => UInt8.ofNat ((a.toNat + b.toNat) / 2)) hle hcur
    exact hstart.rest _ prev hbpp hle hcur
  | 4 => exact (Sweeps.first paeth hle hcur).rest paeth prev hbpp hle hcur
  | n + 5 => exact ⟨fun i hi => (hcur i hi).trans (UInt8.sub_zero _), fun _ _ => rfl⟩

end filters

/-! Rows. -/

section rows

variable {img : PngImage} {place : ℕ → ℤ} {expanded : ℕ → PngPixel} {rgba : ℤ → PngPixel}
  {count width i n : ℕ} {j : ℤ} {row row' : ℕ → UInt8}

theorem writeRow_of_ne (h : ∀ i < count, j ≠ place i) : writeRow place expanded count rgba j = rgba j :=
  foldl_update_of_ne fun i hi => h i (List.mem_range.mp hi)

theorem writeRow_place (hinj : ∀ i < count, ∀ j < count, place i = place j → i = j) (hi : i < count) :
    writeRow place expanded count rgba (place i) = expanded i :=
  foldl_update_of_mem (List.mem_range.mpr hi) fun k hk h => by rw [hinj k (List.mem_range.mp hk) i hi h]

theorem getBytesPerPixel_pos (img : PngImage) : 0 < img.getBytesPerPixel := by
  unfold PngImage.getBytesPerPixel
  split_ifs <;> omega

theorem getBytesPerRow_eq (hbits : img.bitsPerPixel * width < 2 ^ 31) :
    img.getBytesPerRow width =
      if img.bitsPerPixel * width < 8 then 1
      else if img.bitsPerPixel * width % 8 ≠ 0 then img.bitsPerPixel * width / 8 + 1
      else img.bitsPerPixel * width / 8 := by
  unfold PngImage.getBytesPerRow
  simp only [← Nat.cast_mul, toInt_natCast hbits]
  split_ifs <;> omega

theorem getBytesPerPixel_le (hwidth : 0 < width) (hbits : img.bitsPerPixel * width < 2 ^ 31) :
    img.getBytesPerPixel ≤ img.getBytesPerRow width := by
  have hle : img.bitsPerPixel ≤ img.bitsPerPixel * width := Nat.le_mul_of_pos_right _ hwidth
  rw [getBytesPerRow_eq hbits]
  unfold PngImage.getBytesPerPixel
  split_ifs <;> omega

theorem expandPixel_congr (himg : img.Supported) (hbits : img.bitsPerPixel * width < 2 ^ 31)
    (hrow : ∀ i < img.getBytesPerRow width, row i = row' i) (hi : i < width) (x y : PngPixel) :
    img.expandPixel row i x = img.expandPixel row' i y := by
  have hbytes : ∀ k, 8 * k < img.bitsPerPixel * width → row k = row' k := by
    intro k hk
    refine hrow k ?_
    rw [getBytesPerRow_eq hbits]
    split_ifs <;> omega
  unfold PngImage.Supported at himg
  unfold PngImage.bitsPerPixel at hbytes
  simp only [List.mem_cons, Prod.mk.injEq, List.not_mem_nil, or_false] at himg
  -- each byte that is read is one of the pixel's own
  rcases himg with ⟨ht, hd⟩ | ⟨ht, hd⟩ | ⟨ht, hd⟩ | ⟨ht, hd⟩ | ⟨ht, hd⟩ | ⟨ht, hd⟩ | ⟨ht, hd⟩ | ⟨ht, hd⟩ |
    ⟨ht, hd⟩ | ⟨ht, hd⟩ | ⟨ht, hd⟩ | ⟨ht, hd⟩ | ⟨ht, hd⟩ | ⟨ht, hd⟩ | ⟨ht, hd⟩ <;>
  · simp only [ht, hd, Nat.reduceEqDiff, or_false, or_true, or_self, if_true, if_false, Nat.reduceAnd, ne_eq,
      not_true_eq_false, not_false_eq_true, Nat.reduceMul, Nat.reduceAdd] at hbytes
    simp (disch := omega) only [PngImage.expandPixel, PngImage.rawVal, PngImage.rawVal16, ht, hd, hbytes]

theorem rowPixels_eq (himg : img.Supported) (hbits : img.bitsPerPixel * width < 2 ^ 31) :
    img.rowPixels width = width := by
  unfold PngImage.Supported at himg
  unfold PngImage.bitsPerPixel at hbits
  unfold PngImage.rowPixels
  simp only [List.mem_cons, Prod.mk.injEq, List.not_mem_nil, or_false] at himg
  rcases himg with ⟨ht, hd⟩ | ⟨ht, hd⟩ | ⟨ht, hd⟩ | ⟨ht, hd⟩ | ⟨ht, hd⟩ | ⟨ht, hd⟩ | ⟨ht, hd⟩ | ⟨ht, hd⟩ |
    ⟨ht, hd⟩ | ⟨ht, hd⟩ | ⟨ht, hd⟩ | ⟨ht, hd⟩ | ⟨ht, hd⟩ | ⟨ht, hd⟩ | ⟨ht, hd⟩ <;>
  · simp only [ht, hd, Nat.reduceEqDiff, or_false, or_true, or_self, if_true, if_false, Nat.reduceAnd, ne_eq,
      not_true_eq_false, not_false_eq_true, Nat.reduceMul, Nat.reduceAdd] at hbits ⊢
    omega

theorem getBytesPerRow_pos (img : PngImage) (width : ℤ) : 0 < img.getBytesPerRow width := by
  unfold PngImage.getBytesPerRow
  simp only
  split_ifs <;> omega

/-- What is left to read, of data that no sum with the size of a row wraps on. -/
def PngIter.Left (t : PngIter) (rest : List UInt8) : Prop :=
  t.data.length < 2 ^ 31 ∧ t.data.drop t.iter = rest

theorem PngIter.Left.advance {t : PngIter} {data rest : List UInt8} (h : t.Left (data ++ rest))
    (hpos : 0 < data.length) :
    ∃ read t', iterAdvance t data.length = some (read, t') ∧ (∀ i < data.length, read i = data.getD i 0) ∧
      t'.Left rest := by
  obtain ⟨hsize, hdrop⟩ := h
  have hlen := congrArg List.length hdrop
  rw [List.length_drop, List.length_append] at hlen
  unfold iterAdvance
  rw [if_neg (by omega), Nat.mod_eq_of_lt (by omega), Nat.mod_eq_of_lt (by omega), if_pos (by omega)]
  refine ⟨_, _, rfl, fun i hi => ?_, hsize, ?_⟩
  · have hread := congrArg (fun l => l[i]?) hdrop
    simp only [List.getElem?_drop, List.getElem?_append_left hi] at hread
    rw [List.getD_eq_getElem?_getD, List.getD_eq_getElem?_getD, hread]
  · show t.data.drop (t.iter + data.length) = rest
    rw [← List.drop_drop, hdrop, List.drop_left]

theorem PngIter.Left.readByte {t : PngIter} {b : UInt8} {rest : List UInt8} (h : t.Left (b :: rest)) :
    ∃ t', Media.readByte t = (b, t') ∧ t'.Left rest := by
  obtain ⟨read, t', hread, hbyte, hleft⟩ := PngIter.Left.advance (show t.Left ([b] ++ rest) from h) Nat.one_pos
  refine ⟨t', ?_, hleft⟩
  rw [Media.readByte, show iterAdvance t 1 = some (read, t') from hread]
  show (read 0, t') = (b, t')
  rw [hbyte 0 Nat.one_pos]
  rfl

variable {y : ℕ} {s : PngRows} (place : ℕ → ℕ → ℤ)

theorem decodeRows_of_ne {place : ℕ → ℕ → ℤ} {width : ℤ}
    (h : ∀ r, y ≤ r → r < y + n → ∀ i < count, j ≠ place r i) :
    (decodeRows img place count width n y s).rgba j = s.rgba j := by
  induction n generalizing y s with
  | zero => rfl
  | succ n ih =>
    rw [decodeRows]
    simp only
    cases iterAdvance (readByte s.iter).2 (img.getBytesPerRow width) with
    | none => rfl
    | some r =>
      rw [ih fun r hr hlt => h r (by omega) (by omega)]
      exact writeRow_of_ne (h y (Nat.le_refl y) (by omega))

variable {filters : ℕ → UInt8} {rows : ℕ → ℕ → UInt8} {prev : ℕ → UInt8} {rest : List UInt8}

theorem decodeRows_row (hwidth : 0 < width) (hbits : img.bitsPerPixel * width < 2 ^ 31)
    (hiter : s.iter.Left
      (scanlines filters rows (img.getBytesPerRow width) img.getBytesPerPixel (n + 1) y prev ++ rest))
    (hprev : ∀ i < img.getBytesPerRow width, s.prevRow i = prev i) :
    ∃ t, decodeRows img place width width (n + 1) y s = decodeRows img place width width n (y + 1) t ∧
      t.iter.Left
        (scanlines filters rows (img.getBytesPerRow width) img.getBytesPerPixel n (y + 1) (rows y) ++ rest) ∧
      (∀ i < img.getBytesPerRow width, t.prevRow i = rows y i) ∧
      t.rgba = writeRow (place y) (img.expandRow t.prevRow s.rowExpanded width) width s.rgba := by
  set data := (List.range (img.getBytesPerRow width)).map
    (filtered (filters y).toNat img.getBytesPerPixel (rows y) prev) with hdata
  have hlen : data.length = img.getBytesPerRow width := by rw [hdata, List.length_map, List.length_range]
  have hpos : 0 < data.length := by rw [hlen]; exact getBytesPerRow_pos img width
  rw [scanlines, List.cons_append, List.append_assoc] at hiter
  obtain ⟨t, hfilter, hleft⟩ := hiter.readByte
  obtain ⟨read, t', hread, hbytes, hleft⟩ := hleft.advance hpos
  rw [hlen] at hread hbytes
  rw [decodeRows]
  simp only [hfilter, hread]
  refine ⟨_, rfl, hleft, ?_, rfl⟩
  refine (unfilterRow_filtered (getBytesPerPixel_pos img) (getBytesPerPixel_le hwidth hbits) fun i hi => ?_).1
  rw [if_pos hi, hbytes i hi, List.getD_eq_getElem _ _ (by rw [hlen]; exact hi)]
  simp only [List.getElem_map, List.getElem_range]
  exact (filtered_congr hprev hi).symm

theorem decodeRows_scanlines {place : ℕ → ℕ → ℤ} (himg : img.Supported) (hwidth : 0 < width)
    (hbits : img.bitsPerPixel * width < 2 ^ 31)
    (hinj : ∀ r r' i i', y ≤ r → r < y + n → y ≤ r' → r' < y + n → i < width → i' < width →
      place r i = place r' i' → r = r' ∧ i = i')
    (hiter : s.iter.Left
      (scanlines filters rows (img.getBytesPerRow width) img.getBytesPerPixel n y prev ++ rest))
    (hprev : ∀ i < img.getBytesPerRow width, s.prevRow i = prev i) :
    (decodeRows img place width width n y s).iter.Left rest ∧
    ∀ r, y ≤ r → r < y + n → ∀ i < width,
      (decodeRows img place width width n y s).rgba (place r i) = img.expandPixel (rows r) i ⟨0, 0, 0, 0⟩ := by
  induction n generalizing y s prev with
  | zero => exact ⟨hiter, fun r hr hlt => by omega⟩
  | succ n ih =>
    obtain ⟨t, hdecode, htiter, hrow, hrgba⟩ := decodeRows_row place hwidth hbits hiter hprev
    obtain ⟨hrest, hpixels⟩ := ih (fun r r' i i' hr hlt hr' hlt' =>
      hinj r r' i i' (by omega) (by omega) (by omega) (by omega)) htiter hrow
    rw [hdecode]
    refine ⟨hrest, fun r hr hlt i hi => ?_⟩
    obtain rfl | hlater := Nat.eq_or_lt_of_le hr
    · -- no later row comes to this place again
      have hkept : (decodeRows img place width width n (y + 1) t).rgba (place y i) = t.rgba (place y i) :=
        decodeRows_of_ne fun r hr hlt i' hi' h => by
          have := (hinj y r i i' (by omega) (by omega) (by omega) (by omega) hi hi' h).1
          omega
      rw [hkept, hrgba, writeRow_place (fun i hi i' hi' h =>
        (hinj y y i i' (by omega) (by omega) (by omega) (by omega) hi hi' h).2) hi]
      unfold PngImage.expandRow
      rw [if_pos (by rwa [rowPixels_eq himg hbits])]
      exact expandPixel_congr himg hbits hrow hi _ _
    · exact hpixels r hlater (by omega) i hi

end rows

/-! Passes. -/

section passes

variable {img : PngImage} {side j n m k r lo step turns pass subx suby x y : ℕ}

/-- The first `r` lines are those before `side`. -/
def Counts (line : ℕ × ℕ) (side r : ℕ) : Prop := ∀ k, k < r ↔ line.1 + line.2 * k < side

theorem counts_linesBefore {line : ℕ × ℕ} (hstep : 0 < line.2) :
    Counts line side (linesBefore line side) := by
  intro k
  rw [linesBefore, Nat.lt_iff_add_one_le, Nat.le_div_iff_mul_le hstep, Nat.mul_comm (k + 1), Nat.mul_add_one]
  omega

theorem Counts.unique {line : ℕ × ℕ} {r' : ℕ} (h : Counts line side r) (h' : Counts line side r') : r = r' :=
  Nat.le_antisymm (Nat.le_of_not_lt fun hlt => Nat.lt_irrefl _ ((h' _).mpr ((h _).mp hlt)))
    (Nat.le_of_not_lt fun hlt => Nat.lt_irrefl _ ((h _).mpr ((h' _).mp hlt)))

theorem counts_of_le (hbefore : ∀ k < r, lo + step * k < side) (hend : side ≤ lo + step * r) :
    Counts (lo, step) side r := by
  intro k
  refine ⟨hbefore k, fun hk => Nat.lt_of_not_le fun hle => ?_⟩
  have := Nat.mul_le_mul_left step hle
  exact absurd hk (by simp only; omega)

theorem toInt_line (hm : step * m = 8) (hint : 8 * j + (lo + step * k) < 2 ^ 31) :
    toInt ((8 * j : ℕ) + (lo + step * k : ℕ)) = (lo + step * (m * j + k) : ℕ) := by
  rw [← Nat.cast_add, toInt_natCast hint, ← hm]
  congr 1
  ring

theorem boxSide_lines (hm : step * m = 8) (hint : ∀ i < k + n, 8 * j + (lo + step * i) < 2 ^ 31)
    (hbefore : ∀ i < m * j + k, lo + step * i < side) :
    match boxSide side (8 * j : ℕ) ((List.range' k n).map fun i => lo + step * i) (m * j + k) with
    | .ok r => r = m * j + (k + n) ∧ ∀ i < r, lo + step * i < side
    | .error r => Counts (lo, step) side r := by
  induction n generalizing k with
  | zero => exact ⟨rfl, hbefore⟩
  | succ n ih =>
    rw [List.range'_succ, List.map_cons, boxSide, toInt_line hm (hint k (Nat.lt_add_of_pos_right n.succ_pos))]
    split_ifs with hlt
    · have hrest := ih (k := k + 1) (fun i hi => hint i (by omega)) fun i hi => by
        obtain rfl | hless := Nat.eq_or_lt_of_le (Nat.le_of_lt_succ hi)
        · exact Int.ofNat_lt.mp hlt
        · exact hbefore i hless
      rwa [show k + (n + 1) = k + 1 + n by omega]
    · exact counts_of_le hbefore (Int.ofNat_le.mp (Int.not_lt.mp hlt))

theorem passSide_lines (hm : step * m = 8) (hlines : ∀ i < m, lo + step * i < 8) (hside : side + 8 ≤ 2 ^ 31)
    (hbefore : ∀ i < m * j, lo + step * i < side) (hturns : side ≤ 8 * j + 8 * turns) :
    Counts (lo, step) side
      (passSide ((List.range m).map fun i => lo + step * i) side turns (8 * j : ℕ) (m * j)) := by
  have hbox : step * (m * j) = 8 * j := by rw [← Nat.mul_assoc, hm]
  induction turns generalizing j with
  | zero =>
    rw [passSide]
    exact counts_of_le hbefore (by omega)
  | succ turns ih =>
    rw [passSide]
    split_ifs with hlt
    · have hlines := boxSide_lines (k := 0) (n := m) hm (fun i hi => by
        have := hlines i (by omega)
        omega) hbefore
      rw [← List.range_eq_range', Nat.add_zero] at hlines
      cases hr : boxSide side (8 * j : ℕ) ((List.range m).map fun i => lo + step * i) (m * j) with
      | error r =>
        rw [hr] at hlines
        exact hlines
      | ok r =>
        rw [hr] at hlines
        obtain ⟨rfl, hbefore⟩ := hlines
        have hnext : toInt ((8 * j : ℕ) + 8) = (8 * (j + 1) : ℕ) :=
          toInt_natCast (n := 8 * j + 8) (by omega)
        simp only [hnext]
        rw [show m * j + (0 + m) = m * (j + 1) by ring] at hbefore ⊢
        exact ih hbefore (by omega) (by rw [← Nat.mul_assoc, hm])
    · exact counts_of_le hbefore (by omega)

theorem adam7_tables : ∀ pass < 7,
    ((List.range (adam7PassDims pass).1).map (fun n => (adam7PassBytes pass).getD n 0 % 8) =
      (List.range (adam7PassDims pass).1).map fun n => (adam7Columns pass).1 + (adam7Columns pass).2 * n) ∧
    ((List.range (adam7PassDims pass).2).map
        (fun n => (adam7PassBytes pass).getD (n * (adam7PassDims pass).1) 0 / 8) =
      (List.range (adam7PassDims pass).2).map fun n => (adam7Rows pass).1 + (adam7Rows pass).2 * n) ∧
    (adam7Columns pass).2 * (adam7PassDims pass).1 = 8 ∧ (adam7Rows pass).2 * (adam7PassDims pass).2 = 8 ∧
    ∀ y8 < (adam7PassDims pass).2, ∀ x8 < (adam7PassDims pass).1,
      (adam7Columns pass).1 + (adam7Columns pass).2 * x8 < 8 ∧
      (adam7PassBytes pass).getD ((adam7PassDims pass).1 * y8 + x8) 0 =
        8 * ((adam7Rows pass).1 + (adam7Rows pass).2 * y8) +
          ((adam7Columns pass).1 + (adam7Columns pass).2 * x8) := by
  decide +kernel

theorem adam7Pass_eq : ∀ y8 < 8, ∀ x8 < 8, ∀ pass < 7, adam7Pass x8 y8 = pass ↔
    x8 % (adam7Columns pass).2 = (adam7Columns pass).1 ∧ y8 % (adam7Rows pass).2 = (adam7Rows pass).1 := by
  decide +kernel

theorem adam7Lines_lt : ∀ pass < 7,
    (∀ i < (adam7PassDims pass).1, (adam7Columns pass).1 + (adam7Columns pass).2 * i < 8) ∧
    ∀ i < (adam7PassDims pass).2, (adam7Rows pass).1 + (adam7Rows pass).2 * i < 8 := by
  decide

theorem PngImage.Fits.w_eq (h : img.Fits) : (img.w.toNat : ℤ) = img.w := Int.toNat_of_nonneg h.w_pos.le

theorem PngImage.Fits.h_eq (h : img.Fits) : (img.h.toNat : ℤ) = img.h := Int.toNat_of_nonneg h.h_pos.le

theorem PngImage.Fits.area (h : img.Fits) : 4 * (img.w.toNat * img.h.toNat) < 2 ^ 31 := by
  have hpixels := h.pixels
  rw [← h.w_eq, ← h.h_eq] at hpixels
  exact_mod_cast hpixels

theorem PngImage.Fits.sides (h : img.Fits) : img.w.toNat + 8 ≤ 2 ^ 31 ∧ img.h.toNat + 8 ≤ 2 ^ 31 := by
  have harea := h.area
  have hw : 0 < img.w.toNat := by have := h.w_pos; omega
  have hh : 0 < img.h.toNat := by have := h.h_pos; omega
  have hle := Nat.le_mul_of_pos_right img.w.toNat hh
  have hle' := Nat.le_mul_of_pos_left img.h.toNat hw
  omega

theorem adam7GetPassWidth_eq (hfit : img.Fits) (hpass : pass < 7) :
    adam7GetPassWidth img pass = linesBefore (adam7Columns pass) img.w.toNat := by
  obtain ⟨hcols, -, hm, -, -⟩ := adam7_tables pass hpass
  have hcount := passSide_lines (j := 0) hm (adam7Lines_lt pass hpass).1 hfit.sides.1
    (fun i hi => by omega) (show img.w.toNat ≤ 8 * 0 + 8 * img.w.toNat by omega)
  rw [← hcols, hfit.w_eq] at hcount
  refine Counts.unique hcount (counts_linesBefore (Nat.pos_of_ne_zero fun h => ?_))
  rw [h, Nat.zero_mul] at hm
  cases hm

theorem adam7GetPassHeight_eq (hfit : img.Fits) (hpass : pass < 7) :
    adam7GetPassHeight img pass = linesBefore (adam7Rows pass) img.h.toNat := by
  obtain ⟨-, hrows, -, hm, -⟩ := adam7_tables pass hpass
  have hcount := passSide_lines (j := 0) hm (adam7Lines_lt pass hpass).2 hfit.sides.2
    (fun i hi => by omega) (show img.h.toNat ≤ 8 * 0 + 8 * img.h.toNat by omega)
  rw [← hrows, hfit.h_eq] at hcount
  refine Counts.unique hcount (counts_linesBefore (Nat.pos_of_ne_zero fun h => ?_))
  rw [h, Nat.zero_mul] at hm
  cases hm

theorem line_box (hm : step * m = 8) : lo + step * (k % m) + 8 * (k / m) = lo + step * k := by
  rw [← hm, Nat.mul_assoc, Nat.add_assoc, ← Nat.mul_add, Nat.mod_add_div]

theorem place_inj {w x' y' : ℕ} (hx : x < w) (hx' : x' < w) : x + y * w = x' + y' * w ↔ x = x' ∧ y = y' := by
  rw [Nat.add_comm x, Nat.add_comm x']
  exact rowMajor_inj hx hx'

theorem place_lt {w h : ℕ} (hx : x < w) (hy : y < h) : x + y * w < w * h := by
  have hrow := Nat.mul_le_mul_right w (Nat.succ_le_of_lt hy)
  rw [Nat.succ_mul, Nat.mul_comm h] at hrow
  omega

theorem adam7_inside (hfit : img.Fits) (hpass : pass < 7) (subx suby : ℕ) :
    (subx < adam7GetPassWidth img pass ↔ (adam7Columns pass).1 + (adam7Columns pass).2 * subx < img.w.toNat) ∧
    (suby < adam7GetPassHeight img pass ↔ (adam7Rows pass).1 + (adam7Rows pass).2 * suby < img.h.toNat) := by
  obtain ⟨-, -, hcols, hrows, -⟩ := adam7_tables pass hpass
  rw [adam7GetPassWidth_eq hfit hpass, adam7GetPassHeight_eq hfit hpass]
  exact ⟨counts_linesBefore (Nat.pos_of_ne_zero fun h => by rw [h, Nat.zero_mul] at hcols; cases hcols) subx,
    counts_linesBefore (Nat.pos_of_ne_zero fun h => by rw [h, Nat.zero_mul] at hrows; cases hrows) suby⟩

/-- Neither the index of a pixel nor its place in bytes wraps. -/
theorem adam7SubpixelToPixel_eq (hfit : img.Fits) (hpass : pass < 7) (hx : subx < adam7GetPassWidth img pass)
    (hy : suby < adam7GetPassHeight img pass) :
    let place := (adam7Columns pass).1 + (adam7Columns pass).2 * subx +
      ((adam7Rows pass).1 + (adam7Rows pass).2 * suby) * img.w.toNat
    place < img.w.toNat * img.h.toNat ∧ adam7SubpixelToPixel img subx suby pass = place ∧
      adam7Place img subx suby pass = place := by
  intro place
  have hplace : place < img.w.toNat * img.h.toNat :=
    place_lt ((adam7_inside hfit hpass subx suby).1.mp hx) ((adam7_inside hfit hpass subx suby).2.mp hy)
  have harea := hfit.area
  obtain ⟨-, -, hcols, hrows, hbytes⟩ := adam7_tables pass hpass
  have hw : 0 < (adam7PassDims pass).1 := Nat.pos_of_ne_zero fun h => by rw [h] at hcols; cases hcols
  have hh : 0 < (adam7PassDims pass).2 := Nat.pos_of_ne_zero fun h => by rw [h] at hrows; cases hrows
  obtain ⟨hlt, hbyte⟩ := hbytes _ (Nat.mod_lt suby hh) _ (Nat.mod_lt subx hw)
  have hpixel : adam7SubpixelToPixel img subx suby pass = place := by
    unfold adam7SubpixelToPixel
    simp only [hbyte]
    rw [Nat.mul_add_mod, Nat.mod_eq_of_lt hlt, Nat.mul_add_div (by decide), Nat.div_eq_of_lt hlt, Nat.add_zero,
      line_box hcols, line_box hrows, ← hfit.w_eq]
    exact_mod_cast toInt_natCast (n := place) (by omega)
  refine ⟨hplace, hpixel, ?_⟩
  rw [adam7Place, hpixel, show (place : ℤ) * 4 = (place * 4 : ℕ) from rfl, toInt_natCast (by omega)]
  omega

theorem adam7_lines : ∀ pass < 7, (adam7Columns pass).1 < (adam7Columns pass).2 ∧
    (adam7Rows pass).1 < (adam7Rows pass).2 ∧ (adam7Columns pass).2 ∣ 8 ∧ (adam7Rows pass).2 ∣ 8 := by
  decide

theorem adam7Pass_lt : ∀ y8 < 8, ∀ x8 < 8, adam7Pass x8 y8 < 7 := by
  decide

theorem adam7Pass_mod (x y : ℕ) : adam7Pass x y = adam7Pass (x % 8) (y % 8) := by
  rw [adam7Pass, adam7Pass, Nat.mod_mod, Nat.mod_mod]

theorem adam7Pass_iff (hpass : pass < 7) : adam7Pass x y = pass ↔
    x % (adam7Columns pass).2 = (adam7Columns pass).1 ∧ y % (adam7Rows pass).2 = (adam7Rows pass).1 := by
  obtain ⟨-, -, hcols, hrows⟩ := adam7_lines pass hpass
  rw [adam7Pass_mod, adam7Pass_eq _ (Nat.mod_lt y (by decide)) _ (Nat.mod_lt x (by decide)) pass hpass,
    Nat.mod_mod_of_dvd _ hcols, Nat.mod_mod_of_dvd _ hrows]

theorem adam7_place (hfit : img.Fits) (hx : x < img.w.toNat) (hy : y < img.h.toNat) :
    (pass < 7 ∧ subx < adam7GetPassWidth img pass ∧ suby < adam7GetPassHeight img pass ∧
      adam7SubpixelToPixel img subx suby pass = (x + y * img.w.toNat : ℕ)) ↔
    pass = adam7Pass x y ∧ subx = x / (adam7Columns pass).2 ∧ suby = y / (adam7Rows pass).2 := by
  constructor
  · rintro ⟨hpass, hsubx, hsuby, hplace⟩
    obtain ⟨hcol, hrow, -, -⟩ := adam7_lines pass hpass
    rw [(adam7SubpixelToPixel_eq hfit hpass hsubx hsuby).2.1, Nat.cast_inj,
      place_inj ((adam7_inside hfit hpass subx suby).1.mp hsubx) hx] at hplace
    obtain ⟨rfl, rfl⟩ := hplace
    refine ⟨((adam7Pass_iff hpass).mpr ⟨?_, ?_⟩).symm, ?_, ?_⟩
    · rw [Nat.add_mul_mod_self_left, Nat.mod_eq_of_lt hcol]
    · rw [Nat.add_mul_mod_self_left, Nat.mod_eq_of_lt hrow]
    · rw [Nat.add_mul_div_left _ _ (Nat.zero_lt_of_lt hcol), Nat.div_eq_of_lt hcol, Nat.zero_add]
    · rw [Nat.add_mul_div_left _ _ (Nat.zero_lt_of_lt hrow), Nat.div_eq_of_lt hrow, Nat.zero_add]
  · rintro ⟨hpass, hsubx, hsuby⟩
    have hlt : pass < 7 := by
      rw [hpass, adam7Pass_mod]
      exact adam7Pass_lt _ (Nat.mod_lt y (by decide)) _ (Nat.mod_lt x (by decide))
    obtain ⟨hcol, hrow⟩ := (adam7Pass_iff hlt).mp hpass.symm
    have hx' : (adam7Columns pass).1 + (adam7Columns pass).2 * subx = x := by
      rw [hsubx, ← hcol, Nat.mod_add_div]
    have hy' : (adam7Rows pass).1 + (adam7Rows pass).2 * suby = y := by
      rw [hsuby, ← hrow, Nat.mod_add_div]
    have hin := (adam7_inside hfit hlt subx suby).1.mpr (by rwa [hx'])
    have hin' := (adam7_inside hfit hlt subx suby).2.mpr (by rwa [hy'])
    have hpixel := (adam7SubpixelToPixel_eq hfit hlt hin hin').2.1
    rw [hx', hy'] at hpixel
    exact ⟨hlt, hin, hin', hpixel⟩

theorem adam7_inj {subx' suby' : ℕ} (hfit : img.Fits) (hpass : pass < 7)
    (hx : subx < adam7GetPassWidth img pass) (hx' : subx' < adam7GetPassWidth img pass)
    (hy : suby < adam7GetPassHeight img pass) (hy' : suby' < adam7GetPassHeight img pass)
    (h : adam7Place img subx suby pass = adam7Place img subx' suby' pass) : subx = subx' ∧ suby = suby' := by
  obtain ⟨hcol, hrow, -, -⟩ := adam7_lines pass hpass
  rw [(adam7SubpixelToPixel_eq hfit hpass hx hy).2.2, (adam7SubpixelToPixel_eq hfit hpass hx' hy').2.2,
    Nat.cast_inj, place_inj ((adam7_inside hfit hpass subx suby).1.mp hx)
      ((adam7_inside hfit hpass subx' suby).1.mp hx')] at h
  exact ⟨Nat.eq_of_mul_eq_mul_left (Nat.zero_lt_of_lt hcol) (Nat.add_left_cancel h.1),
    Nat.eq_of_mul_eq_mul_left (Nat.zero_lt_of_lt hrow) (Nat.add_left_cancel h.2)⟩

variable {s : PngRows} {filters : ℕ → ℕ → UInt8} {rows : ℕ → ℕ → ℕ → UInt8} {rest : List UInt8}

theorem adam7DecodePass_of_ne {j : ℤ} (h : ∀ subx < adam7GetPassWidth img pass,
    ∀ suby < adam7GetPassHeight img pass, j ≠ adam7Place img subx suby pass) :
    (adam7DecodePass img s pass).rgba j = s.rgba j := by
  unfold adam7DecodePass
  simp only
  split_ifs
  · rfl
  · exact decodeRows_of_ne fun r _ hlt i hi => h i hi r (by omega)

theorem adam7DecodePass_data (himg : img.Supported) (hfit : img.Fits) (hpass : pass < 7)
    (hiter : s.iter.Left (passData img filters rows pass ++ rest)) :
    (adam7DecodePass img s pass).iter.Left rest ∧
    ∀ x < img.w.toNat, ∀ y < img.h.toNat, adam7Pass x y = pass →
      (adam7DecodePass img s pass).rgba (x + y * img.w.toNat : ℕ) = passPixel img rows x y := by
  unfold passData at hiter
  rw [← adam7GetPassWidth_eq hfit hpass, ← adam7GetPassHeight_eq hfit hpass] at hiter
  have hplace : ∀ x < img.w.toNat, ∀ y < img.h.toNat, adam7Pass x y = pass →
      x / (adam7Columns pass).2 < adam7GetPassWidth img pass ∧
      y / (adam7Rows pass).2 < adam7GetPassHeight img pass ∧
      adam7Place img (x / (adam7Columns pass).2) (y / (adam7Rows pass).2) pass = (x + y * img.w.toNat : ℕ) := by
    intro x hx y hy h
    obtain ⟨-, hin, hin', hpixel⟩ := (adam7_place hfit hx hy).mpr ⟨h.symm, rfl, rfl⟩
    obtain ⟨-, heq, hbytes⟩ := adam7SubpixelToPixel_eq hfit hpass hin hin'
    exact ⟨hin, hin', hbytes.trans (heq.symm.trans hpixel)⟩
  unfold adam7DecodePass
  simp only at hiter ⊢
  split_ifs with h0
  · rw [if_pos h0] at hiter
    refine ⟨hiter, fun x hx y hy h => ?_⟩
    exact absurd (hplace x hx y hy h).1 (by rw [h0]; exact Nat.not_lt_zero _)
  · rw [if_neg h0] at hiter
    have hbits : img.bitsPerPixel * adam7GetPassWidth img pass < 2 ^ 31 := by
      have hrow := hfit.rowBits
      rw [← hfit.w_eq] at hrow
      have hle : adam7GetPassWidth img pass ≤ img.w.toNat := Nat.le_of_not_lt fun h => by
        have := (adam7_inside hfit hpass img.w.toNat 0).1.mp h
        have hcol := (adam7_lines pass hpass).1
        have := Nat.le_mul_of_pos_left img.w.toNat (Nat.zero_lt_of_lt hcol)
        omega
      exact Nat.lt_of_le_of_lt (Nat.mul_le_mul_left _ hle) (by exact_mod_cast hrow)
    obtain ⟨hrest, hpixels⟩ := decodeRows_scanlines (s := { s with prevRow := fun _ => 0 })
      himg (Nat.pos_of_ne_zero h0) hbits (by
        intro r r' i i' _ hr _ hr' hi hi' h
        exact (adam7_inj hfit hpass hi hi' (by omega) (by omega) h).symm) hiter fun _ _ => rfl
    refine ⟨hrest, fun x hx y hy h => ?_⟩
    obtain ⟨hsubx, hsuby, heq⟩ := hplace x hx y hy h
    rw [← heq, hpixels _ (Nat.zero_le _) (by omega) _ hsubx]
    unfold passPixel
    rw [h]

theorem adam7DecodePass_foldl (himg : img.Supported) (hfit : img.Fits) {passes : List ℕ}
    (hpasses : ∀ p ∈ passes, p < 7)
    (hiter : s.iter.Left (passes.flatMap (passData img filters rows) ++ rest)) (hx : x < img.w.toNat)
    (hy : y < img.h.toNat) :
    (passes.foldl (adam7DecodePass img) s).rgba (x + y * img.w.toNat : ℕ) =
      if adam7Pass x y ∈ passes then passPixel img rows x y else s.rgba (x + y * img.w.toNat : ℕ) := by
  induction passes generalizing s with
  | nil => rfl
  | cons p passes ih =>
    obtain ⟨hp, hpasses⟩ := List.forall_mem_cons.mp hpasses
    rw [List.flatMap_cons, List.append_assoc] at hiter
    obtain ⟨hrest, hpixels⟩ := adam7DecodePass_data himg hfit hp hiter
    rw [List.foldl_cons, ih hpasses hrest]
    by_cases hlater : adam7Pass x y ∈ passes
    · rw [if_pos hlater, if_pos (List.mem_cons_of_mem p hlater)]
    · rw [if_neg hlater]
      by_cases hnow : adam7Pass x y = p
      · rw [if_pos (List.mem_cons.mpr (.inl hnow)), hpixels x hx y hy hnow]
      · rw [if_neg fun h => (List.mem_cons.mp h).elim hnow hlater]
        refine adam7DecodePass_of_ne fun subx hsubx suby hsuby h => hnow ?_
        obtain ⟨-, heq, hbytes⟩ := adam7SubpixelToPixel_eq hfit hp hsubx hsuby
        exact ((adam7_place hfit hx hy).mp ⟨hp, hsubx, hsuby, heq.trans (hbytes.symm.trans h.symm)⟩).1.symm

theorem adam7DecodePass_inside (hfit : img.Fits) {passes : List ℕ} (hpasses : ∀ p ∈ passes, p < 7) {j : ℤ}
    (hj : j < 0 ∨ (img.w.toNat * img.h.toNat : ℕ) ≤ j) :
    (passes.foldl (adam7DecodePass img) s).rgba j = s.rgba j := by
  induction passes generalizing s with
  | nil => rfl
  | cons p passes ih =>
    obtain ⟨hp, hpasses⟩ := List.forall_mem_cons.mp hpasses
    rw [List.foldl_cons, ih hpasses]
    refine adam7DecodePass_of_ne fun subx hsubx suby hsuby h => ?_
    obtain ⟨hlt, -, hplace⟩ := adam7SubpixelToPixel_eq hfit hp hsubx hsuby
    rw [hplace] at h
    omega

end passes

variable {img : PngImage} {rgba : ℤ → PngPixel} {data rest : List UInt8} {x y : ℕ}

theorem PngImage.Fits.bufferPixels_eq (hfit : img.Fits) :
    img.bufferPixels = (img.w.toNat * img.h.toNat : ℕ) := by
  have harea := hfit.area
  rw [PngImage.bufferPixels, ← toInt_natCast (n := img.w.toNat * img.h.toNat) (by omega), Nat.cast_mul,
    hfit.w_eq, hfit.h_eq]

theorem PngImage.Fits.pixel_eq (hfit : img.Fits) : (x + y * img.w : ℤ) = (x + y * img.w.toNat : ℕ) := by
  rw [← hfit.w_eq]
  push_cast
  rfl

theorem rowPlace_eq (hfit : img.Fits) (hx : x < img.w.toNat) (hy : y < img.h.toNat) :
    (y * img.w * 4 % 2 ^ 32 / 4 + x : ℤ) = (x + y * img.w.toNat : ℕ) := by
  have harea := hfit.area
  have hlt := place_lt hx hy
  have hrow : (y * img.w * 4 : ℤ) = (4 * (y * img.w.toNat) : ℕ) := by
    push_cast
    rw [hfit.w_eq]
    ring
  rw [hrow]
  omega

theorem rowCount_eq (hfit : img.Fits) :
    (toInt (4 * img.w) % 2 ^ 64).toNat / 4 = img.w.toNat ∧ (img.h % 2 ^ 32).toNat = img.h.toNat := by
  have harea := hfit.area
  have hw := hfit.w_pos
  have hh := hfit.h_pos
  have hsides := hfit.sides
  have hle := Nat.le_mul_of_pos_right img.w.toNat (show 0 < img.h.toNat by omega)
  rw [toInt_of_isInt ⟨by omega, by omega⟩]
  omega

theorem adam7_covers (hfit : img.Fits) (hx : x < img.w) (hy : y < img.h) :
    ∃! p : ℕ × ℕ × ℕ, p.1 < 7 ∧ p.2.1 < adam7GetPassWidth img p.1 ∧ p.2.2 < adam7GetPassHeight img p.1 ∧
      adam7SubpixelToPixel img p.2.1 p.2.2 p.1 = x + y * img.w := by
  rw [hfit.pixel_eq]
  refine ⟨(adam7Pass x y, x / (adam7Columns (adam7Pass x y)).2, y / (adam7Rows (adam7Pass x y)).2),
    (adam7_place hfit (by omega) (by omega)).mpr ⟨rfl, rfl, rfl⟩, fun p hp => ?_⟩
  obtain ⟨hpass, hsubx, hsuby⟩ := (adam7_place hfit (by omega) (by omega)).mp hp
  rw [← hpass, ← hsubx, ← hsuby]

theorem adam7_covers_corner : ∃! p : ℕ × ℕ × ℕ,
    p.1 < 7 ∧ p.2.1 < adam7GetPassWidth ⟨5, 9, 8, 0, 1, -1, -1, 0, 0, fun _ => ⟨0, 0, 0, 255⟩, fun _ v => v⟩ p.1 ∧
      p.2.2 < adam7GetPassHeight ⟨5, 9, 8, 0, 1, -1, -1, 0, 0, fun _ => ⟨0, 0, 0, 255⟩, fun _ v => v⟩ p.1 ∧
      adam7SubpixelToPixel ⟨5, 9, 8, 0, 1, -1, -1, 0, 0, fun _ => ⟨0, 0, 0, 255⟩, fun _ v => v⟩ p.2.1 p.2.2 p.1 =
        (4 : ℕ) + (8 : ℕ) * 5 :=
  @adam7_covers ⟨5, 9, 8, 0, 1, -1, -1, 0, 0, fun _ => ⟨0, 0, 0, 255⟩, fun _ v => v⟩ 4 8
    ⟨by decide, by decide, by decide, by decide⟩ (by decide) (by decide)

/-- Whatever filters the rows have been given, the pixels are those of the rows. -/
theorem decodeImage_scanlines {filters : ℕ → UInt8} {rows : ℕ → ℕ → UInt8} (himg : img.Supported)
    (hfit : img.Fits) (hmethod : img.interlaceMethod = 0) (hsize : data.length < 2 ^ 31)
    (hdata : data = scanlines filters rows (img.getBytesPerRow img.w) img.getBytesPerPixel img.h.toNat 0
      (fun _ => 0) ++ rest) (hx : x < img.w) (hy : y < img.h) :
    decodeImage img data rgba (x + y * img.w) = img.expandPixel (rows y) x ⟨0, 0, 0, 0⟩ := by
  obtain ⟨hcount, hheight⟩ := rowCount_eq hfit
  have hbits := hfit.rowBits
  rw [← hfit.w_eq] at hbits
  have hrows := @decodeRows_scanlines _ _ img.h.toNat 0
    ⟨⟨data, 0⟩, fun _ => 0, fun _ => 0, fun _ => ⟨0, 0, 0, 0⟩, rgba⟩ _ _ _ _
    (fun row i => row * img.w * 4 % 2 ^ 32 / 4 + i) himg
    (show 0 < img.w.toNat by omega) (by exact_mod_cast hbits)
    (fun r r' i i' _ hr _ hr' hi hi' h => by
      rw [rowPlace_eq hfit hi (by omega), rowPlace_eq hfit hi' (by omega), Nat.cast_inj, place_inj hi hi'] at h
      exact h.symm) ⟨hsize, by rw [hfit.w_eq]; exact hdata⟩ fun _ _ => rfl
  have hpixel := hrows.2 y (Nat.zero_le y) (by omega) x (by omega)
  rw [rowPlace_eq hfit (by omega) (by omega), hfit.w_eq] at hpixel
  unfold decodeImage
  rw [if_pos hmethod, hcount, hheight, hfit.pixel_eq]
  exact hpixel

/-- Two rows of gray pixels, the second of which has the Paeth filter. -/
theorem decodeImage_scanlines_gray :
    decodeImage ⟨2, 2, 8, 0, 0, -1, -1, 0, 0, fun _ => ⟨0, 0, 0, 255⟩, fun _ v => v⟩
      (scanlines (fun y => UInt8.ofNat (4 * y)) (fun y i => UInt8.ofNat (20 * y + i)) 2 1 2 0 (fun _ => 0) ++ [])
      (fun _ => ⟨0, 0, 0, 0⟩) ((1 : ℕ) + (1 : ℕ) * 2) = ⟨21, 21, 21, 255⟩ :=
  decodeImage_scanlines (by simp [PngImage.Supported]) ⟨by decide, by decide, by decide, by decide⟩ rfl
    (by decide) rfl (by decide) (by decide)

theorem decodeImage_interlaced {filters : ℕ → ℕ → UInt8} {rows : ℕ → ℕ → ℕ → UInt8} (himg : img.Supported)
    (hfit : img.Fits) (hmethod : img.interlaceMethod = 1) (hsize : data.length < 2 ^ 31)
    (hdata : data = (List.range 7).flatMap (passData img filters rows) ++ rest) (hx : x < img.w)
    (hy : y < img.h) : decodeImage img data rgba (x + y * img.w) = passPixel img rows x y := by
  have hpixel := adam7DecodePass_foldl
    (s := ⟨⟨data, 0⟩, fun _ => 0, fun _ => 0, fun _ => ⟨0, 0, 0, 0⟩, rgba⟩) himg hfit
    (fun p hp => List.mem_range.mp hp) ⟨hsize, hdata⟩ (x := x) (y := y) (by omega) (by omega)
  have hpass : adam7Pass x y ∈ List.range 7 := by
    rw [List.mem_range, adam7Pass_mod]
    exact adam7Pass_lt _ (Nat.mod_lt y (by decide)) _ (Nat.mod_lt x (by decide))
  unfold decodeImage adam7Decode
  simp only [hmethod, Nat.one_ne_zero, if_false, if_true]
  rw [hfit.pixel_eq, hpixel, if_pos hpass]

theorem decodeImage_interlaced_gray :
    decodeImage ⟨3, 3, 8, 0, 1, -1, -1, 0, 0, fun _ => ⟨0, 0, 0, 255⟩, fun _ v => v⟩
      ((List.range 7).flatMap (passData ⟨3, 3, 8, 0, 1, -1, -1, 0, 0, fun _ => ⟨0, 0, 0, 255⟩, fun _ v => v⟩
        (fun _ _ => 3) fun pass y i => UInt8.ofNat (50 * pass + 10 * y + i)) ++ [])
      (fun _ => ⟨0, 0, 0, 0⟩) ((2 : ℕ) + (2 : ℕ) * 3) = ⟨201, 201, 201, 255⟩ :=
  decodeImage_interlaced (by simp [PngImage.Supported]) ⟨by decide, by decide, by decide, by decide⟩ rfl
    (by decide) rfl (by decide) (by decide)

/-- No data makes the decoder write beside the buffer. -/
theorem decodeImage_inside {j : ℤ} (hfit : img.Fits) (hj : j < 0 ∨ img.bufferPixels ≤ j) :
    decodeImage img data rgba j = rgba j := by
  obtain ⟨hcount, hheight⟩ := rowCount_eq hfit
  rw [hfit.bufferPixels_eq] at hj
  unfold decodeImage
  rw [hcount, hheight]
  split_ifs
  · refine decodeRows_of_ne fun r _ hr i hi h => ?_
    have hlt := place_lt hi (show r < img.h.toNat by omega)
    rw [rowPlace_eq hfit hi (by omega)] at h
    omega
  · exact adam7DecodePass_inside hfit (fun p hp => List.mem_range.mp hp) hj
  · rfl

theorem decodeImage_inside_cut :
    decodeImage ⟨2, 2, 8, 2, 1, -1, -1, 0, 0, fun _ => ⟨0, 0, 0, 255⟩, fun _ v => v⟩ [7, 1, 2, 3, 4, 200]
      (fun _ => ⟨9, 9, 9, 9⟩) 4 = ⟨9, 9, 9, 9⟩ :=
  decodeImage_inside ⟨by decide, by decide, by decide, by decide⟩ (by decide)

end GcAos.Media
