import Bongos.Gfx.Blend
import Bongos.Gfx.Flatten
import Bongos.Gfx.Region

/-!
# The canvas

`canvas.c`, and `gfxFillPath` of `fill.c`. The memory is a function from addresses, counted in
pixels, to pixels, and 0 is the address `NULL`: a source of a blit can be any surface in the same
memory, the canvas's own one too. The clip on top of the stack is `clip`, and `outer` are those
below it.
-/

namespace Bongos.Gfx

def GFX_CLIP_DEPTH : ℕ := 32

def GFX_SURFACE_MAX_DIM : ℤ := 65536

/-- The pixels in memory. -/
abbrev PixelMem := ℕ → Pixel

structure GfxSurface where
  pixels : ℕ
  width : I32
  height : I32
  stride : I32

/-- `GfxMask`, with its bytes. There are none if `data` is `NULL`. -/
structure GfxMask where
  data : Option (ℕ → Byte)
  width : I32
  height : I32
  stride : I32

structure GfxCanvas where
  surf : GfxSurface
  originX : I32
  originY : I32
  clip : GfxRect
  outer : List GfxRect
  scratchSize : ℕ

def satAdd (a b : I32) : I32 :=
  let s : ℤ := (a : ℤ) + b
  if h : s > 2^31 - 1 then ⟨2^31 - 1, greatest_i32⟩
  else if h' : s < -2^31 then ⟨-2^31, least_i32⟩
  else ⟨s, by omega⟩

variable (c : GfxCanvas)

def toSurface (r : GfxRect) : GfxRect :=
  ⟨satAdd r.x0 c.originX, satAdd r.y0 c.originY, satAdd r.x1 c.originX, satAdd r.y1 c.originY⟩

def gfxCanvasInit (s : GfxSurface) : Except Status GfxCanvas :=
  if s.pixels = 0 ∨ (s.width : ℤ) ≤ 0 ∨ (s.height : ℤ) ≤ 0 ∨ (s.width : ℤ) > GFX_SURFACE_MAX_DIM ∨
      (s.height : ℤ) > GFX_SURFACE_MAX_DIM ∨ (s.stride : ℤ) < s.width then .error .errInvalid
  else if (s.stride : ℤ) * s.height > (2^64 - 1) / 4 ∨ (s.stride : ℤ) > (2^31 - 1) / 2 then
    .error .errInvalid
  else
    let zero : I32 := ⟨0, zero_i32⟩
    .ok ⟨s, zero, zero, ⟨zero, zero, s.width, s.height⟩, [], 0⟩

def gfxCanvasSetOrigin (x y : I32) : GfxCanvas :=
  { c with originX := x, originY := y }

def gfxCanvasTranslate (dx dy : I32) : GfxCanvas :=
  { c with originX := satAdd c.originX dx, originY := satAdd c.originY dy }

def gfxCanvasPushClip (r : GfxRect) : Status × GfxCanvas :=
  if c.outer.length + 1 ≥ GFX_CLIP_DEPTH then (.errUnsupported, c)
  else (.ok, { c with clip := gfxRectIntersect (toSurface c r) c.clip, outer := c.clip :: c.outer })

def gfxCanvasPopClip : Status × GfxCanvas :=
  match c.outer with
  | [] => (.errInvalid, c)
  | r :: rs => (.ok, { c with clip := r, outer := rs })

/-- The pixel of a surface at `x` and `y`: `rowPtr(s, y) + x`. -/
def pixelPtr (s : GfxSurface) (x y : ℤ) : ℕ := s.pixels + y.toNat * (s.stride : ℤ).toNat + x.toNat

/-- `p[0] = v`. -/
def setPixel (m : PixelMem) (p : ℕ) (v : Pixel) : PixelMem := fun q => if q = p then v else m q

/-- `n` pixels from `dst` on, each with its index, replaced in order. -/
def mapSpan (m : PixelMem) (dst n : ℕ) (f : ℕ → Pixel → Pixel) : PixelMem :=
  (List.range n).foldl (fun m i => setPixel m (dst + i) (f i (m (dst + i)))) m

def gfxBlendSpan (m : PixelMem) (dst n : ℕ) (col : Pixel) (op : GfxOp) : PixelMem :=
  if op = .srcOver ∧ col >>> 24 = 0#32 then m
  else if op = .srcOver ∧ col >>> 24 ≠ 255#32 then
    mapSpan m dst n fun _ d => gfxBlendPixel d col 255#32 op
  else mapSpan m dst n fun _ _ => col

def gfxBlendSpanCov (m : PixelMem) (dst : ℕ) (cov : ℕ → Byte) (n : ℕ) (col : Pixel) (op : GfxOp) :
    PixelMem :=
  mapSpan m dst n fun i d => if cov i ≠ 0#8 then gfxBlendPixel d col ((cov i).setWidth 32) op else d

variable (m : PixelMem)

def gfxFillRect (r : GfxRect) (col : Pixel) (op : GfxOp) : PixelMem :=
  let d := gfxRectIntersect (toSurface c r) c.clip
  if gfxRectIsEmpty d then m
  else (countUp d.y0 d.y1 1).foldl
    (fun m y => gfxBlendSpan m (pixelPtr c.surf d.x0 y) ((d.x1 : ℤ) - d.x0).toNat
      (gfxColorSanitize col) op) m

/-- `memmove` of `n` pixels. -/
def movePixels (m : PixelMem) (dst src n : ℕ) : PixelMem :=
  fun q => if dst ≤ q ∧ q < dst + n then m (src + (q - dst)) else m q

/-- The part of a source at `(ddx, ddy)`, of the size `w` by `h`, that is in the clip: `x0`, `y0`,
`x1` and `y1`. -/
structure DrawBox where
  x0 : ℤ
  y0 : ℤ
  x1 : ℤ
  y1 : ℤ

/-- The four comparisons with the clip that `gfxBlit` and `gfxFillMask` make. -/
def drawBox (clip : GfxRect) (ddx ddy w h : ℤ) : DrawBox :=
  { x0 := if ddx > clip.x0 then ddx else clip.x0
    y0 := if ddy > clip.y0 then ddy else clip.y0
    x1 := if ddx + w < clip.x1 then ddx + w else clip.x1
    y1 := if ddy + h < clip.y1 then ddy + h else clip.y1 }

/-- A row of `gfxBlit`, from `sp` to `dp`. -/
def blitRow (op : GfxOp) (alpha : Byte) (backwardsX : Bool) (cols : ℤ) (m : PixelMem) (sp dp : ℕ) :
    PixelMem :=
  if op = .src ∧ alpha = 255#8 then movePixels m dp sp cols.toNat
  else (countUp 0 cols 1).foldl
    (fun m j =>
      let rx := if backwardsX then cols - 1 - j else j
      setPixel m (dp + rx.toNat) (gfxBlendPixel (m (dp + rx.toNat))
        (gfxColorSanitize (m (sp + rx.toNat))) (alpha.setWidth 32) op)) m

/-- The rows of `gfxBlit`, to the box `b` from the pixel `(sx0, sy0)` of the source on. -/
def blitRows (src : GfxSurface) (op : GfxOp) (alpha : Byte) (b : DrawBox)
    (sx0 sy0 : ℤ) (m : PixelMem) : PixelMem :=
  let cols := b.x1 - b.x0
  let rows := b.y1 - b.y0
  let sameBuffer : Bool := src.pixels = c.surf.pixels
  let backwardsY := sameBuffer && decide (b.y0 > sy0)
  let backwardsX := sameBuffer && decide (b.y0 = sy0) && decide (b.x0 > sx0)
  (countUp 0 rows 1).foldl
    (fun m i =>
      let ry := if backwardsY then rows - 1 - i else i
      blitRow op alpha backwardsX cols m (pixelPtr src sx0 (sy0 + ry))
        (pixelPtr c.surf b.x0 (b.y0 + ry))) m

/-- `gfxBlit`. There is no source if `src` is `NULL`. -/
def gfxBlit (dx dy : I32) (src : Option GfxSurface)
    (srcRect : GfxRect) (op : GfxOp) (alpha : Byte) : PixelMem :=
  match src with
  | none => m
  | some src =>
    if src.pixels = 0 ∨ (src.width : ℤ) ≤ 0 ∨ (src.height : ℤ) ≤ 0 ∨ (src.stride : ℤ) < src.width ∨
        (alpha = 0#8 ∧ op = .srcOver) then m
    else
      let zero : I32 := ⟨0, zero_i32⟩
      let sr := gfxRectIntersect srcRect ⟨zero, zero, src.width, src.height⟩
      if gfxRectIsEmpty sr then m
      else
        let ddx : ℤ := (dx : ℤ) + ((sr.x0 : ℤ) - srcRect.x0) + c.originX
        let ddy : ℤ := (dy : ℤ) + ((sr.y0 : ℤ) - srcRect.y0) + c.originY
        let b := drawBox c.clip ddx ddy ((sr.x1 : ℤ) - sr.x0) ((sr.y1 : ℤ) - sr.y0)
        if b.x0 ≥ b.x1 ∨ b.y0 ≥ b.y1 then m
        else blitRows c src op alpha b (sr.x0 + (b.x0 - ddx)) (sr.y0 + (b.y0 - ddy)) m

/-- `gfxFillMask`. There is no mask if `mask` is `NULL`. -/
def gfxFillMask (dx dy : I32) (mask : Option GfxMask) (col : Pixel) : PixelMem :=
  match mask with
  | none => m
  | some k =>
    match k.data with
    | none => m
    | some data =>
      if (k.width : ℤ) ≤ 0 ∨ (k.height : ℤ) ≤ 0 ∨ (k.stride : ℤ) < k.width then m
      else
        let ddx : ℤ := (dx : ℤ) + c.originX
        let ddy : ℤ := (dy : ℤ) + c.originY
        let b := drawBox c.clip ddx ddy k.width k.height
        if b.x0 ≥ b.x1 ∨ b.y0 ≥ b.y1 then m
        else (countUp b.y0 b.y1 1).foldl
          (fun m y =>
            let cov := (y - ddy).toNat * (k.stride : ℤ).toNat + (b.x0 - ddx).toNat
            gfxBlendSpanCov m (pixelPtr c.surf b.x0 y) (fun i => data (cov + i)) (b.x1 - b.x0).toNat
              (gfxColorSanitize col) .srcOver) m

def canvasSpan (col : Pixel) (op : GfxOp) (m : PixelMem) (s : Span) : PixelMem :=
  gfxBlendSpanCov m (pixelPtr c.surf s.x s.y) (fun i => s.cov.getD i 0) s.cov.length col op

/-- `gfxFillPath`. The allocator's answers are given, and what stands in the scratch memory. -/
def gfxFillPath {F : Type*} [FloatArith F] (answers : ℕ → Bool) (cells : Cells) (c : GfxCanvas)
    (m : PixelMem) (p : GfxPath F) (rule : GfxFillRule) (col : Pixel) (op : GfxOp) :
    Status × GfxCanvas × PixelMem :=
  if p.error ≠ .ok then (p.error, c, m)
  else if gfxRectIsEmpty c.clip ∨ p.verbs = [] then (.ok, c, m)
  else
    let l := gfxFlattenPath answers p c.originX c.originY (gfxEdgeListInit c.clip)
    if l.error ≠ .ok then (l.error, c, m)
    else
      let (st, size, m) :=
        gfxRasterFill (answers l.requests) cells c.scratchSize l.edges c.clip rule
          (canvasSpan c (gfxColorSanitize col) op) m
      (st, { c with scratchSize := size }, m)

end Bongos.Gfx
