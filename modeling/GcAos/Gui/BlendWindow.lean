import GcAos.Gui.DirtyRegion

/-! Which pixels `compositor_blend_window` reads, combines and writes. -/

namespace GcAos.Gui.Composite
open Lib

section Pixels

variable {alpha src dst : ℕ}

theorem outA_pos {srcA dstA : ℕ} (hpos : 0 < srcA) (hsrc : srcA < 256) (hdst : dstA < 256) :
    (srcA + dstA * (255 - srcA) / 255) % 256 ≠ 0 := by
  have hmul : dstA * (255 - srcA) ≤ 255 * (255 - srcA) := Nat.mul_le_mul_right _ (by omega)
  have hshare : dstA * (255 - srcA) / 255 ≤ 255 - srcA := by
    calc dstA * (255 - srcA) / 255
        ≤ 255 * (255 - srcA) / 255 := Nat.div_le_div_right hmul
      _ = 255 - srcA := Nat.mul_div_cancel_left _ (by decide)
  omega

theorem blendPixel_isSome (alpha src dst : ℕ) : ∃ pixel, blendPixel alpha src dst = some pixel := by
  unfold blendPixel
  dsimp only
  split_ifs with hsolid hpos
  · exact ⟨_, rfl⟩
  · have hout := outA_pos hpos (Nat.mod_lt _ (by decide)) (Nat.mod_lt (dst >>> 24) (by decide))
    simp only [divide, if_neg hout]
    exact ⟨_, rfl⟩
  · exact ⟨_, rfl⟩

theorem blendPixel_lt {pixel : ℕ} (hsrc : src < 256 ^ 4) (hdst : dst < 256 ^ 4)
    (h : blendPixel alpha src dst = some pixel) : pixel < 256 ^ 4 := by
  unfold blendPixel at h
  dsimp only at h
  split_ifs at h with hsolid hpos
  · exact Option.some.inj h ▸ hsrc
  · obtain ⟨outR, -, h⟩ := Option.bind_eq_some_iff.mp h
    obtain ⟨outG, -, h⟩ := Option.bind_eq_some_iff.mp h
    obtain ⟨outB, -, h⟩ := Option.bind_eq_some_iff.mp h
    obtain rfl := Option.some.inj h
    have hshift : ∀ n k : ℕ, k ≤ 24 → (n % 256) <<< k < 2 ^ 32 := by
      intro n k hk
      have hn : n % 256 < 2 ^ 8 := Nat.mod_lt _ (by decide)
      calc (n % 256) <<< k = n % 256 * 2 ^ k := Nat.shiftLeft_eq _ _
        _ < 2 ^ 8 * 2 ^ k := Nat.mul_lt_mul_of_pos_right hn (by positivity)
        _ ≤ 2 ^ 8 * 2 ^ 24 := Nat.mul_le_mul_left _ (Nat.pow_le_pow_right (by decide) hk)
    have hlow : outB % 256 < 2 ^ 32 := (Nat.mod_lt _ (by decide)).trans (by decide)
    exact Nat.or_lt_two_pow (Nat.or_lt_two_pow (Nat.or_lt_two_pow (hshift _ 24 le_rfl)
      (hshift _ 16 (by decide))) (hshift _ 8 (by decide))) hlow
  · exact Option.some.inj h ▸ hdst

end Pixels

section Loops

variable {alpha : ℕ} {src dst dst' dst'' : Buffer} {jobs jobs' : List (ℤ × ℤ)}

namespace Buffer

variable {b : Buffer} {off : ℤ}

def pixel (b : Buffer) (off : ℤ) : ℕ := b.bytes.load off.toNat 4

def Has (b : Buffer) (off : ℤ) : Prop := 0 ≤ off ∧ off + 4 ≤ b.size

theorem load_of_has (h : b.Has off) : b.load off = some (b.pixel off) := if_pos h

theorem store_of_has (h : b.Has off) (pixel : ℕ) :
    b.store off pixel = some { b with bytes := b.bytes.store off.toNat 4 pixel } := if_pos h

end Buffer

/-- `dst'` is `dst` after the pixels of `src` at the second offsets have been blended over those at the
first ones. -/
structure Blends (alpha : ℕ) (src dst dst' : Buffer) (jobs : List (ℤ × ℤ)) : Prop where
  size : dst'.size = dst.size
  nonneg : ∀ p ∈ jobs, 0 ≤ p.1
  pixel : ∀ p ∈ jobs, blendPixel alpha (src.pixel p.2) (dst.pixel p.1) = some (dst'.pixel p.1)
  frame : ∀ i : ℕ, (∀ p ∈ jobs, (i : ℤ) < p.1 ∨ p.1 + 4 ≤ i) → dst'.bytes i = dst.bytes i

def Apart (jobs jobs' : List (ℤ × ℤ)) : Prop :=
  ∀ p ∈ jobs, ∀ q ∈ jobs', p.1 + 4 ≤ q.1 ∨ q.1 + 4 ≤ p.1

theorem Blends.pixel_of_apart (h : Blends alpha src dst dst' jobs) {off : ℤ} (hoff : 0 ≤ off)
    (hap : ∀ p ∈ jobs, off + 4 ≤ p.1 ∨ p.1 + 4 ≤ off) : dst'.pixel off = dst.pixel off := by
  refine Bytes.load_congr fun i hi => h.frame _ fun p hp => ?_
  have := hap p hp
  omega

theorem Blends.append (h : Blends alpha src dst dst' jobs) (h' : Blends alpha src dst' dst'' jobs')
    (hap : Apart jobs jobs') : Blends alpha src dst dst'' (jobs ++ jobs') where
  size := h'.size.trans h.size
  nonneg p hp := (List.mem_append.mp hp).elim (h.nonneg p) (h'.nonneg p)
  pixel p hp := by
    rcases List.mem_append.mp hp with hp | hp
    · rw [h'.pixel_of_apart (h.nonneg p hp) fun q hq => hap p hp q hq]
      exact h.pixel p hp
    · rw [← h.pixel_of_apart (h'.nonneg p hp) fun q hq => (hap q hq p hp).symm]
      exact h'.pixel p hp
  frame i hi := by
    rw [h'.frame i fun p hp => hi p (List.mem_append_right _ hp)]
    exact h.frame i fun p hp => hi p (List.mem_append_left _ hp)

theorem Blends.refl (alpha : ℕ) (src dst : Buffer) : Blends alpha src dst dst [] :=
  ⟨rfl, by simp, by simp, fun _ _ => rfl⟩

theorem blendAt_blends (alpha : ℕ) {d s : ℤ} (hd : dst.Has d) (hs : src.Has s) :
    ∃ dst', blendAt alpha src dst d s = some dst' ∧ Blends alpha src dst dst' [(d, s)] := by
  obtain ⟨pixel, hpixel⟩ := blendPixel_isSome alpha (src.pixel s) (dst.pixel d)
  have hlt : pixel < 256 ^ 4 := blendPixel_lt (Bytes.load_lt _ _ _) (Bytes.load_lt _ _ _) hpixel
  refine ⟨{ dst with bytes := dst.bytes.store d.toNat 4 pixel }, ?_, rfl, ?_, ?_, ?_⟩
  · rw [blendAt, Buffer.load_of_has hs, Buffer.load_of_has hd]
    change (blendPixel alpha (src.pixel s) (dst.pixel d)).bind (fun pixel => dst.store d pixel) = _
    rw [hpixel, Option.bind_some, Buffer.store_of_has hd]
  · rintro p hp
    rw [List.mem_singleton.mp hp]
    exact hd.1
  · rintro p hp
    rw [List.mem_singleton.mp hp, hpixel, Buffer.pixel, Bytes.load_store, Nat.mod_eq_of_lt hlt]
  · intro i hi
    have hi := hi (d, s) (List.mem_singleton_self _)
    have hd := hd.1
    exact Bytes.store_of_outside (by omega)

theorem foldlM_blends {turn : Buffer → ℕ → Option Buffer} {jobs : ℕ → List (ℤ × ℤ)} {n : ℕ}
    (hturn : ∀ k < n, ∀ b : Buffer, b.size = dst.size →
      ∃ b', turn b k = some b' ∧ Blends alpha src b b' (jobs k))
    (hap : ∀ k < n, ∀ l < k, Apart (jobs l) (jobs k)) :
    ∃ dst', (List.range n).foldlM turn dst = some dst' ∧
      Blends alpha src dst dst' ((List.range n).flatMap jobs) := by
  induction n with
  | zero => exact ⟨dst, rfl, Blends.refl alpha src dst⟩
  | succ n ih =>
    obtain ⟨mid, hmid, hblends⟩ := ih (fun k hk => hturn k (by omega)) fun k hk => hap k (by omega)
    obtain ⟨dst', hdst', hlast⟩ := hturn n (by omega) mid hblends.size
    refine ⟨dst', ?_, ?_⟩
    · rw [List.range_succ, List.foldlM_append, hmid]
      simpa using hdst'
    · rw [List.range_succ, List.flatMap_append, List.flatMap_singleton]
      refine hblends.append hlast fun p hp => ?_
      obtain ⟨l, hl, hp⟩ := List.mem_flatMap.mp hp
      exact hap n (by omega) l (List.mem_range.mp hl) p hp

def rowJobs (d s : ℤ) (width : ℕ) : List (ℤ × ℤ) :=
  (List.range width).flatMap fun (col : ℕ) => [(d + 4 * col, s + 4 * col)]

theorem mem_rowJobs {d s : ℤ} {width : ℕ} {p : ℤ × ℤ} :
    p ∈ rowJobs d s width ↔ ∃ col < width, p = (d + 4 * col, s + 4 * col) := by
  simp [rowJobs]

theorem blendRow_blends (alpha : ℕ) {d s : ℤ} {width : ℕ} (hd : ∀ col < width, dst.Has (d + 4 * col))
    (hs : ∀ col < width, src.Has (s + 4 * col)) :
    ∃ dst', blendRow alpha src dst d s width = some dst' ∧
      Blends alpha src dst dst' (rowJobs d s width) := by
  rw [blendRow, rowJobs]
  refine foldlM_blends (fun col hcol b hb => ?_) fun k hk l hl p hp q hq => ?_
  · refine blendAt_blends alpha ?_ (hs col hcol)
    rw [Buffer.Has, hb]
    exact hd col hcol
  · rw [List.mem_singleton.mp hp, List.mem_singleton.mp hq]
    left
    dsimp only
    omega

def blendJobs (d s dstPitch srcPitch : ℤ) (width height : ℕ) : List (ℤ × ℤ) :=
  (List.range height).flatMap fun (row : ℕ) => rowJobs (d + dstPitch * row) (s + srcPitch * row) width

theorem mem_blendJobs {d s dstPitch srcPitch : ℤ} {width height : ℕ} {p : ℤ × ℤ} :
    p ∈ blendJobs d s dstPitch srcPitch width height ↔ ∃ row < height, ∃ col < width,
      p = (d + dstPitch * row + 4 * col, s + srcPitch * row + 4 * col) := by
  simp [blendJobs, mem_rowJobs]

theorem compositorBlend_blends (alpha : ℕ) {s x y width height srcPitch dstPitch : ℤ}
    (hy : IsInt (y * dstPitch)) (hx : IsInt (x * 4)) (hpitch : 4 * width ≤ dstPitch)
    (hd : ∀ row < height.toNat, ∀ col < width.toNat,
      dst.Has (y * dstPitch + x * 4 + dstPitch * row + 4 * col))
    (hs : ∀ row < height.toNat, ∀ col < width.toNat, src.Has (s + srcPitch * row + 4 * col)) :
    ∃ dst', compositorBlend dst src s x y width height srcPitch dstPitch alpha = some dst' ∧
      Blends alpha src dst dst'
        (blendJobs (y * dstPitch + x * 4) s dstPitch srcPitch width.toNat height.toNat) := by
  rw [compositorBlend, toInt_of_isInt hy, toInt_of_isInt hx, blendJobs]
  refine foldlM_blends (fun row hrow b hb => ?_) fun k hk l hl p hp q hq => ?_
  · refine blendRow_blends alpha (fun col hcol => ?_) (hs row hrow)
    rw [Buffer.Has, hb]
    exact hd row hrow col hcol
  · obtain ⟨i, hi, rfl⟩ := mem_rowJobs.mp hp
    obtain ⟨j, hj, rfl⟩ := mem_rowJobs.mp hq
    -- the row `l` ends before the row `k` starts
    have hrows : dstPitch * l + dstPitch ≤ dstPitch * k := by
      calc dstPitch * l + dstPitch = dstPitch * ((l : ℤ) + 1) := by ring
        _ ≤ dstPitch * k := mul_le_mul_of_nonneg_left (by omega) (by omega)
    left
    dsimp only
    omega

end Loops

section Windows

variable {g : Compositor} {win : WindowSize} {src dst : Buffer} {x y : ℤ}

/-- The buffer has the pixels of `height` rows of `width` columns. -/
def Buffer.Holds (b : Buffer) (width height pitch : ℤ) : Prop :=
  ∀ row col, 0 ≤ row → row < height → 0 ≤ col → col < width → b.Has (row * pitch + 4 * col)

/-- The sums and products of `compositor_blend_window` do not overflow. -/
structure SumsFit (g : Compositor) (win : WindowSize) (x y : ℤ) : Prop where
  left : IsInt x
  top : IsInt y
  height : IsInt win.height
  right : IsInt (x + win.width)
  bottom : IsInt (y + win.height)
  bufferPitch : IsInt win.bufferPitch
  screenHeight : IsInt g.screenHeight
  screenPitch : IsInt g.screenPitch
  srcRow : y < 0 → IsInt (-y * win.bufferPitch)
  dstRow : 0 ≤ y → y < g.screenHeight → IsInt (y * g.screenPitch)

theorem clipWindow_eq (hwidth : g.screenWidth < 2 ^ 31) (hfit : SumsFit g win x y)
    (hpitch : 4 * win.width ≤ win.bufferPitch) :
    ∃ src, g.clipWindow win x y =
      { x := max x 0
        y := max y 0
        width := min (x + win.width) g.screenWidth - max x 0
        height := min (y + win.height) g.screenHeight - max y 0
        src := src } ∧
      (-win.width < x → -win.height < y →
        src = (max x 0 - x) * 4 + (max y 0 - y) * win.bufferPitch) := by
  have hheight : g.screenHeight < 2 ^ 31 := by
    have := hfit.screenHeight.2
    omega
  have hx := clampAxis_eq hwidth hfit.left hfit.right
  have hy := clampAxis_eq hheight hfit.top hfit.bottom
  refine ⟨_, by rw [Compositor.clipWindow, hx, hy], fun hleft htop => ?_⟩
  obtain ⟨hxlow, hxhigh⟩ := hfit.left
  obtain ⟨hylow, hyhigh⟩ := hfit.top
  obtain ⟨hhlow, hhhigh⟩ := hfit.height
  obtain ⟨hplow, hphigh⟩ := hfit.bufferPitch
  have hcols : (if x < 0 then toInt (toInt (-x) * 4) else 0) = (max x 0 - x) * 4 := by
    by_cases hneg : x < 0
    · have hint : IsInt (-x) := ⟨by omega, by omega⟩
      have hprod : IsInt (-x * 4) := ⟨by omega, by omega⟩
      rw [if_pos hneg, toInt_of_isInt hint, toInt_of_isInt hprod, max_eq_right hneg.le, zero_sub]
    · rw [if_neg hneg, max_eq_left (not_lt.mp hneg), sub_self, zero_mul]
  have hrows : (if y < 0 then toInt (toInt (-y) * win.bufferPitch) else 0) =
      (max y 0 - y) * win.bufferPitch := by
    by_cases hneg : y < 0
    · have hint : IsInt (-y) := ⟨by omega, by omega⟩
      rw [if_pos hneg, toInt_of_isInt hint, toInt_of_isInt (hfit.srcRow hneg), max_eq_right hneg.le,
        zero_sub]
    · rw [if_neg hneg, max_eq_left (not_lt.mp hneg), sub_self, zero_mul]
  rw [hcols, hrows]

def placed (g : Compositor) (win : WindowSize) (x y : ℤ) : Set (ℤ × ℤ) :=
  DirtyRect.pixels ⟨x, y, win.width, win.height⟩ ∩ g.screen

theorem mem_placed {p : ℤ × ℤ} : p ∈ placed g win x y ↔
    (max x 0 ≤ p.1 ∧ p.1 < min (x + win.width) g.screenWidth) ∧
      max y 0 ≤ p.2 ∧ p.2 < min (y + win.height) g.screenHeight := by
  rw [placed, DirtyRect.pixels, Compositor.screen, Set.prod_inter_prod, Set.Ico_inter_Ico,
    Set.Ico_inter_Ico]
  rfl

/-- The pixels of the window that are on the screen are combined with those of its buffer, and nothing
else is written. -/
theorem compositorBlendWindow_clipped (hscreen : 4 * g.screenWidth ≤ g.screenPitch)
    (hpitch : 4 * win.width ≤ win.bufferPitch) (hfit : SumsFit g win x y)
    (hsrc : src.Holds win.width win.height win.bufferPitch)
    (hdst : dst.Holds g.screenWidth g.screenHeight g.screenPitch) :
    ∃ g' dst', g.compositorBlendWindow (some win) (some src) (some dst) x y = some (g', some dst', 0) ∧
      (∀ p ∈ placed g win x y,
        blendPixel 255 (src.pixel ((p.2 - y) * win.bufferPitch + 4 * (p.1 - x)))
            (dst.pixel (p.2 * g.screenPitch + 4 * p.1)) =
          some (dst'.pixel (p.2 * g.screenPitch + 4 * p.1))) ∧
      ∀ i : ℕ, (∀ p ∈ placed g win x y,
          (i : ℤ) < p.2 * g.screenPitch + 4 * p.1 ∨ p.2 * g.screenPitch + 4 * p.1 + 4 ≤ i) →
        dst'.bytes i = dst.bytes i := by
  obtain ⟨hplow, hphigh⟩ := hfit.screenPitch
  obtain ⟨s, hclip, hs⟩ := clipWindow_eq (by omega) hfit hpitch
  rw [Compositor.compositorBlendWindow, hclip]
  dsimp only
  by_cases hempty : min (x + win.width) g.screenWidth - max x 0 ≤ 0 ∨
      min (y + win.height) g.screenHeight - max y 0 ≤ 0
  · rw [if_pos hempty]
    refine ⟨g, dst, rfl, fun p hp => ?_, fun i hi => rfl⟩
    obtain ⟨hcol, hrow⟩ := mem_placed.mp hp
    omega
  have hs := hs (by omega) (by omega)
  have hrow : IsInt (max y 0 * g.screenPitch) := by
    rcases le_total 0 y with hy | hy
    · rw [max_eq_left hy]
      exact hfit.dstRow hy (by omega)
    · rw [max_eq_right hy, zero_mul]
      decide
  rw [if_neg hempty, toInt_of_isInt hfit.screenPitch]
  set X := max x 0 with hX
  set Y := max y 0 with hY
  set W := min (x + win.width) g.screenWidth - X with hW
  set H := min (y + win.height) g.screenHeight - Y with hH
  have hcol : IsInt (X * 4) := ⟨by omega, by omega⟩
  have htarget : ∀ row < H.toNat, ∀ col < W.toNat,
      dst.Has (Y * g.screenPitch + X * 4 + g.screenPitch * row + 4 * col) := by
    intro row hrow col hcol
    have h := hdst (Y + row) (X + col) (by omega) (by omega) (by omega) (by omega)
    convert h using 1
    ring
  have hsource : ∀ row < H.toNat, ∀ col < W.toNat, src.Has (s + win.bufferPitch * row + 4 * col) := by
    intro row hrow col hcol
    have h := hsrc (Y - y + row) (X - x + col) (by omega) (by omega) (by omega) (by omega)
    rw [hs]
    convert h using 1
    ring
  obtain ⟨dst', hdst', hblends⟩ := compositorBlend_blends 255 hrow hcol (by omega) htarget hsource
  rw [hdst']
  -- the pixel of a row and a column of the loops, and the one of a place on the screen
  have hjob : ∀ p, p ∈ placed g win x y ↔ ∃ row < H.toNat, ∃ col < W.toNat,
      p = (X + col, Y + row) := by
    intro p
    rw [mem_placed]
    constructor
    · rintro ⟨hcol, hrow⟩
      exact ⟨(p.2 - Y).toNat, by omega, (p.1 - X).toNat, by omega, Prod.ext (by dsimp only; omega)
        (by dsimp only; omega)⟩
    · rintro ⟨row, hrow, col, hcol, rfl⟩
      exact ⟨by dsimp only; omega, by dsimp only; omega⟩
  refine ⟨_, dst', rfl, fun p hp => ?_, fun i hi => hblends.frame i fun q hq => ?_⟩
  · obtain ⟨row, hrow, col, hcol, rfl⟩ := (hjob p).mp hp
    have hpixel := hblends.pixel _ (mem_blendJobs.mpr ⟨row, hrow, col, hcol, rfl⟩)
    rw [hs] at hpixel
    convert hpixel using 3 <;> ring
  · obtain ⟨row, hrow, col, hcol, rfl⟩ := mem_blendJobs.mp hq
    have hout := hi _ ((hjob _).mpr ⟨row, hrow, col, hcol, rfl⟩)
    have hoff : (Y + row) * (g.screenPitch : ℤ) + 4 * (X + col) =
        Y * g.screenPitch + X * 4 + g.screenPitch * row + 4 * col := by
      ring
    dsimp only at hout ⊢
    rwa [hoff] at hout

theorem compositorBlendWindow_clipped_left : ∃ g' dst',
    smallScreen.compositorBlendWindow (some ⟨2, 2, 8⟩) (some ⟨fun _ => 255, 16⟩) (some ⟨fun _ => 0, 128⟩)
      (-1) 0 = some (g', some dst', 0) ∧ dst'.pixel 0 = 2 ^ 32 - 1 := by
  have hsrc : Buffer.Holds ⟨fun _ => 255, 16⟩ 2 2 8 := by
    intro row col _ _ _ _
    exact ⟨by omega, by dsimp only; omega⟩
  have hdst : Buffer.Holds ⟨fun _ => 0, 128⟩ 8 4 32 := by
    intro row col _ _ _ _
    exact ⟨by omega, by dsimp only; omega⟩
  have hfit : SumsFit smallScreen ⟨2, 2, 8⟩ (-1) 0 :=
    ⟨by decide, by decide, by decide, by decide, by decide, by decide, by decide, by decide,
      fun _ => by decide, fun _ => by decide⟩
  obtain ⟨g', dst', hblend, hpixel, -⟩ :=
    compositorBlendWindow_clipped (g := smallScreen) (by decide) (by decide) hfit hsrc hdst
  refine ⟨g', dst', hblend, ?_⟩
  have hsolid : blendPixel 255 (Buffer.pixel ⟨fun _ => 255, 16⟩ 4) (Buffer.pixel ⟨fun _ => 0, 128⟩ 0) =
      some (dst'.pixel 0) := hpixel (0, 0) (mem_placed.mpr ⟨by decide, by decide⟩)
  have hwhite : blendPixel 255 (Buffer.pixel ⟨fun _ => 255, 16⟩ 4) (Buffer.pixel ⟨fun _ => 0, 128⟩ 0) =
      some (2 ^ 32 - 1) := by decide +kernel
  exact Option.some.inj (hsolid.symm.trans hwhite)

end Windows

end GcAos.Gui.Composite
