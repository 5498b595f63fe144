import GcAos.Lib.Bytes
import GcAos.Lib.CInt

/-! The damage tracking and the blitting of `gui/compositor.c`. The undeclared `g_complicator`, which
some of its lines name, is `g_compositor`. -/

namespace GcAos.Gui.Composite
open Lib

def compositorMaxDirtyRects : ℕ := 64

structure DirtyRect where
  x : ℤ
  y : ℤ
  width : ℤ
  height : ℤ
  deriving DecidableEq

/-- `dirty_region_t`, of whose array the first `count` entries are listed. -/
structure DirtyRegion where
  rects : List DirtyRect := []
  fullRedraw : Bool := false
  deriving DecidableEq

/-- The part of `compositor_t` that is about the screen. -/
structure Compositor where
  screenWidth : ℕ
  screenHeight : ℕ
  screenPitch : ℕ
  dirtyRegion : DirtyRegion := {}
  pixelsComposited : ℕ := 0

namespace DirtyRect

variable (r : DirtyRect)

def right : ℤ := toInt (r.x + r.width)
def bottom : ℤ := toInt (r.y + r.height)

def Inside (e : DirtyRect) : Prop :=
  e.x ≤ r.x ∧ e.y ≤ r.y ∧ r.right ≤ e.right ∧ r.bottom ≤ e.bottom

instance (e : DirtyRect) : Decidable (r.Inside e) := inferInstanceAs (Decidable (_ ∧ _))

def Touches (b : DirtyRect) : Prop :=
  r.x ≤ b.right ∧ b.x ≤ r.right ∧ r.y ≤ b.bottom ∧ b.y ≤ r.bottom

instance (b : DirtyRect) : Decidable (r.Touches b) := inferInstanceAs (Decidable (_ ∧ _))

/-- The edges of both are read before `x` and `y` move. -/
def merge (b : DirtyRect) : DirtyRect :=
  let x := if b.x < r.x then b.x else r.x
  let y := if b.y < r.y then b.y else r.y
  { x := x
    y := y
    width := if r.right < b.right then toInt (b.right - x) else r.width
    height := if r.bottom < b.bottom then toInt (b.bottom - y) else r.height }

end DirtyRect

/-- The rectangles once `r` has been found in one of them, or has replaced one. -/
def absorb (r : DirtyRect) : List DirtyRect → Option (List DirtyRect)
  | [] => none
  | existing :: rects =>
    if r.Inside existing then some (existing :: rects)
    else if existing.Inside r then some (r :: rects)
    else (absorb r rects).map (existing :: ·)

/-- What is left of `length` places from `place` on in the `size` places of the screen. -/
def clampAxis (size : ℕ) (place length : ℤ) : ℤ × ℤ :=
  let (place, length) := if place < 0 then (0, toInt (length + place)) else (place, length)
  (place, if toInt size < toInt (place + length) then toInt (size - place) else length)

namespace Compositor

variable (g : Compositor)

def clampDirty (x y width height : ℤ) : DirtyRect :=
  let (x, width) := clampAxis g.screenWidth x width
  let (y, height) := clampAxis g.screenHeight y height
  { x := x, y := y, width := width, height := height }

def compositorMarkDirty (x y width height : ℤ) : Compositor :=
  let r := g.clampDirty x y width height
  if r.width ≤ 0 ∨ r.height ≤ 0 then g
  else if compositorMaxDirtyRects ≤ g.dirtyRegion.rects.length then
    { g with dirtyRegion := { g.dirtyRegion with fullRedraw := true } }
  else
    match absorb r g.dirtyRegion.rects with
    | some rects => { g with dirtyRegion := { g.dirtyRegion with rects := rects } }
    | none => { g with dirtyRegion := { g.dirtyRegion with rects := g.dirtyRegion.rects ++ [r] } }

def compositorClearDirty : Compositor := { g with dirtyRegion := { rects := [], fullRedraw := false } }

end Compositor

/-- The inner loop: the first rectangle that `a` touches is merged into it and removed. -/
def mergeFirst (a : DirtyRect) : List DirtyRect → Option (DirtyRect × List DirtyRect)
  | [] => none
  | b :: rects =>
    if a.Touches b then some (a.merge b, rects)
    else (mergeFirst a rects).map fun p => (p.1, b :: p.2)

/-- The outer loop of `compositor_optimize_dirty`: the rectangles before `i`, and those from `i` on. -/
def optimizeTurn : List DirtyRect × List DirtyRect → Option (List DirtyRect × List DirtyRect)
  | (_, []) => none
  | (done, a :: rest) =>
    match mergeFirst a rest with
    | some (a, rest) => some (done, a :: rest)
    | none => some (done ++ [a], rest)

/-- A pixel buffer. An access outside of it has no result. -/
structure Buffer where
  bytes : Bytes
  size : ℕ

namespace Buffer

variable (b : Buffer)

def load (off : ℤ) : Option ℕ :=
  if 0 ≤ off ∧ off + 4 ≤ b.size then some (b.bytes.load off.toNat 4) else none

def store (off : ℤ) (pixel : ℕ) : Option Buffer :=
  if 0 ≤ off ∧ off + 4 ≤ b.size then some { b with bytes := b.bytes.store off.toNat 4 pixel } else none

end Buffer

/-- The part of a `window_t` that is read when it is blended. -/
structure WindowSize where
  width : ℤ
  height : ℤ
  bufferPitch : ℤ

/-- A division that has no result when it is by zero. -/
def divide (a b : ℕ) : Option ℕ := if b = 0 then none else some (a / b)

/-- The pixel that is stored for `src` over `dst`, the channels being `uint8_t`. -/
def blendPixel (alpha src dst : ℕ) : Option ℕ :=
  let srcA := ((src >>> 24) % 256 * alpha / 255) % 256
  if srcA = 255 then some src
  else if 0 < srcA then do
    let dstA := (dst >>> 24) % 256
    let outA := (srcA + dstA * (255 - srcA) / 255) % 256
    let channel := fun s d => s % 256 * srcA + d % 256 * dstA * (255 - srcA) / 255
    let outR ← divide (channel (src >>> 16) (dst >>> 16)) outA
    let outG ← divide (channel (src >>> 8) (dst >>> 8)) outA
    let outB ← divide (channel src dst) outA
    some (outA <<< 24 ||| (outR % 256) <<< 16 ||| (outG % 256) <<< 8 ||| outB % 256)
  else some dst

/-- One turn of the inner loop, on the pixels at `d` and at `s`. -/
def blendAt (alpha : ℕ) (src : Buffer) (dst : Buffer) (d s : ℤ) : Option Buffer := do
  let srcPixel ← src.load s
  let dstPixel ← dst.load d
  let pixel ← blendPixel alpha srcPixel dstPixel
  dst.store d pixel

def blendRow (alpha : ℕ) (src dst : Buffer) (d s : ℤ) (width : ℕ) : Option Buffer :=
  (List.range width).foldlM (fun dst (col : ℕ) => blendAt alpha src dst (d + 4 * col) (s + 4 * col)) dst

/-- `src` is the buffer that `*src` points into, at the offset `s`. -/
def compositorBlend (dst src : Buffer) (s x y width height srcPitch dstPitch : ℤ) (alpha : ℕ) :
    Option Buffer :=
  let d := toInt (y * dstPitch) + toInt (x * 4)
  (List.range height.toNat).foldlM (fun dst (row : ℕ) =>
    blendRow alpha src dst (d + dstPitch * row) (s + srcPitch * row) width.toNat) dst

namespace Compositor

variable (g : Compositor)

/-- What is drawn of a window: the place, the size and the offset of its first pixel in the source. -/
structure Blit where
  x : ℤ
  y : ℤ
  width : ℤ
  height : ℤ
  src : ℤ

def clipWindow (win : WindowSize) (x y : ℤ) : Blit :=
  let left := if x < 0 then toInt (toInt (-x) * 4) else 0
  let above := if y < 0 then toInt (toInt (-y) * win.bufferPitch) else 0
  let (x, width) := clampAxis g.screenWidth x win.width
  let (y, height) := clampAxis g.screenHeight y win.height
  { x := x, y := y, width := width, height := height, src := left + above }

/-- The pointers are null or point to buffers. What is returned stands with the target, which has no
result when an access is outside of its buffer or a division is by zero. -/
def compositorBlendWindow (win : Option WindowSize) (src dst : Option Buffer) (x y : ℤ) :
    Option (Compositor × Option Buffer × ℤ) :=
  match win, src, dst with
  | some win, some src, some dst => do
    let c := g.clipWindow win x y
    if c.width ≤ 0 ∨ c.height ≤ 0 then return (g, some dst, 0)
    let dst ← compositorBlend dst src c.src c.x c.y c.width c.height win.bufferPitch
      (toInt g.screenPitch) 255
    let pixels := (g.pixelsComposited + toInt (c.width * c.height)) % 2 ^ 64
    return ({ g with pixelsComposited := pixels.toNat }, some dst, 0)
  | _, _, dst => some (g, dst, -1)

end Compositor

end GcAos.Gui.Composite
