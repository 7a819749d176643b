import Bongos.BoundedLoop
import Bongos.Gfx.Rect
import Bongos.Slice
import Bongos.Status

/-!
# The rasterizer

`gfxEdgeListAdd` of `flatten.c` and all of `raster.c`. A coordinate of an edge is in 24.8 fixed
point and within the limit to which `gfxFlattenPath` clamps, so that the 64-bit products of the
interpolation do not overflow. The answers of the allocator are given: the function `answers` says
which of the requests succeed.

The scratch memory is a function from the index of a cell to its `cover` and its `area`. A call of
the span function is a `Span`.
-/

namespace Bongos.Gfx

def GFX_RASTER_MAX_EDGES : ℕ := 8192

def BAND_ROWS : ℤ := 16

def BAND_MAX_CELLS : ℤ := 131072

/-- `FULL`: the coverage of a whole pixel. -/
def FULL : ℤ := 131072

/-- A coordinate in 24.8 fixed point, within `FIXED_LIMIT`. -/
abbrev Fixed := {z : ℤ // -2^30 ≤ z ∧ z ≤ 2^30}

theorem zero_fixed : -2^30 ≤ (0 : ℤ) ∧ (0 : ℤ) ≤ 2^30 := by decide

/-- `GfxEdge`: it goes down, and `dir` says which way it went before. -/
structure GfxEdge where
  x0 : Fixed
  y0 : Fixed
  x1 : Fixed
  y1 : Fixed
  dir : ℤ
  y0_lt_y1 : (y0 : ℤ) < y1
  dir_eq : dir = 1 ∨ dir = -1

/-- `GfxEdgeList`, with the number of requests that were made of the allocator. -/
structure GfxEdgeList where
  edges : List GfxEdge
  cap : ℕ
  clip : GfxRect
  error : Status
  requests : ℕ

def gfxEdgeListInit (clip : GfxRect) : GfxEdgeList := ⟨[], 0, clip, .ok, 0⟩

/-- The edge between two points, turned to go down. A horizontal one is no edge. -/
def edgeBetween (x0 y0 x1 y1 : Fixed) : Option GfxEdge :=
  if h : (y0 : ℤ) = y1 then none
  else if h' : (y0 : ℤ) > y1 then some ⟨x1, y1, x0, y0, -1, h', .inr rfl⟩
  else some ⟨x0, y0, x1, y1, 1, by omega, .inl rfl⟩

/-- The edge is wholly above or below the clip. -/
def GfxEdge.Outside (e : GfxEdge) (clip : GfxRect) : Prop :=
  (e.y1 : ℤ) ≤ clip.y0 * 256 ∨ (e.y0 : ℤ) ≥ clip.y1 * 256

instance (e : GfxEdge) (clip : GfxRect) : Decidable (e.Outside clip) :=
  inferInstanceAs (Decidable (_ ∨ _))

def gfxEdgeListAdd (answers : ℕ → Bool) (l : GfxEdgeList) (x0 y0 x1 y1 : Fixed) : GfxEdgeList :=
  if l.error ≠ .ok then l
  else match edgeBetween x0 y0 x1 y1 with
    | none => l
    | some e =>
      if e.Outside l.clip then l
      else if l.edges.length ≥ GFX_RASTER_MAX_EDGES then { l with error := .errUnsupported }
      else if l.edges.length = l.cap then
        if answers l.requests then
          { l with
            edges := l.edges ++ [e]
            cap := if l.cap ≠ 0 then l.cap * 2 else 256
            requests := l.requests + 1 }
        else { l with error := .errNoMemory, requests := l.requests + 1 }
      else { l with edges := l.edges ++ [e] }

/-! ## The pieces of an edge -/

def floorDiv256 (v : ℤ) : ℤ := if v ≥ 0 then v.tdiv 256 else -((-v + 255).tdiv 256)

def edgeXAt (e : GfxEdge) (y : ℤ) : ℤ :=
  if y = e.y0 then e.x0
  else if y = e.y1 then e.x1
  else e.x0 + ((y - e.y0) * ((e.x1 : ℤ) - e.x0)).tdiv ((e.y1 : ℤ) - e.y0)

def segYAtX (xa ya xb yb x : ℤ) : ℤ :=
  if x = xa then ya
  else if x = xb then yb
  else ya + ((x - xa) * (yb - ya)).tdiv (xb - xa)

/-- `b >= a ? b - a : a - b`. -/
def extent (a b : ℤ) : ℤ := if b ≥ a then b - a else a - b

/-- The scratch memory: `cover` and `area` of each cell. -/
abbrev Cells := ℕ → ℤ × ℤ

/-- `cover[i] += cover` and `area[i] += area`. -/
def addTo (m : Cells) (i : ℕ) (cover area : ℤ) : Cells :=
  fun j => if j = i then ((m j).1 + cover, (m j).2 + area) else m j

/-- A round of the loop of `addRowPiece`: the part of the piece that is in the cell `c`. -/
def addCell (off : ℕ) (lo hi xa ya xb yb dir : ℤ) (m : Cells) (c : ℤ) : Cells :=
  let xl := if lo > c * 256 then lo else c * 256
  let xr := if hi < (c + 1) * 256 then hi else (c + 1) * 256
  let dy := extent (segYAtX xa ya xb yb xl) (segYAtX xa ya xb yb xr)
  addTo m (off + c.toNat) (dir * dy) (dir * dy * ((xl - c * 256) + (xr - c * 256)))

/-- The loop of `addRowPiece` over the cells between `lo` and `hi`. -/
def addCells (m : Cells) (off : ℕ) (lo hi xa ya xb yb dir : ℤ) : Cells :=
  (countUp (lo / 256) ((hi - 1) / 256 + 1) 1).foldl (addCell off lo hi xa ya xb yb dir) m

/-- `addRowPiece` from the place on where the end points have been ordered: `xa <= xb`. -/
def addOrderedPiece (m : Cells) (off w : ℕ) (xa ya xb yb dir : ℤ) : Cells :=
  let W : ℤ := w * 256
  if xb ≤ 0 then addTo m off (dir * extent ya yb) 0
  else if xa ≥ W then m
  else if xa = xb then
    addTo m (off + (xa / 256).toNat) (dir * extent ya yb) (dir * extent ya yb * (xa % 256 * 2))
  else
    let hi := if xb < W then xb else W
    if xa < 0 then
      addCells (addTo m off (dir * extent ya (segYAtX xa ya xb yb 0)) 0) off 0 hi xa ya xb yb dir
    else addCells m off xa hi xa ya xb yb dir

/-- `addRowPiece`, on the row of `w` cells that starts at `off`. -/
def addRowPiece (m : Cells) (off w : ℕ) (xa ya xb yb dir : ℤ) : Cells :=
  if xa > xb then addOrderedPiece m off w xb yb xa ya dir
  else addOrderedPiece m off w xa ya xb yb dir

/-! ## `gfxRasterFill` -/

inductive GfxFillRule where
  | nonzero
  | evenodd
  deriving DecidableEq

/-- A call of the span function: the coverage of the pixels from `x` on in the row `y`. -/
structure Span where
  y : ℤ
  x : ℤ
  cov : List Byte

/-- The bounding box of the edges. -/
structure EdgeBox where
  minX : ℤ
  maxX : ℤ
  minY : ℤ
  maxY : ℤ

/-- The box with one more edge. -/
def EdgeBox.grow (b : EdgeBox) (e : GfxEdge) : EdgeBox :=
  let lo : ℤ := if (e.x0 : ℤ) < e.x1 then e.x0 else e.x1
  let hi : ℤ := if (e.x0 : ℤ) < e.x1 then e.x1 else e.x0
  { minX := if lo < b.minX then lo else b.minX
    maxX := if hi > b.maxX then hi else b.maxX
    minY := if (e.y0 : ℤ) < b.minY then e.y0 else b.minY
    maxY := if (e.y1 : ℤ) > b.maxY then e.y1 else b.maxY }

/-- The part of the picture that is drawn, in pixels. -/
structure RasterBox where
  bx0 : ℤ
  bx1 : ℤ
  by0 : ℤ
  by1 : ℤ

/-- The bounding box of the edges in pixels, clipped. -/
def rasterBox (first : GfxEdge) (edges : List GfxEdge) (clip : GfxRect) : RasterBox :=
  let b := edges.foldl EdgeBox.grow ⟨first.x0, first.x0, first.y0, first.y1⟩
  let bx0 := floorDiv256 b.minX
  let bx1 := -floorDiv256 (-b.maxX)
  let by0 := floorDiv256 b.minY
  let by1 := -floorDiv256 (-b.maxY)
  { bx0 := if bx0 > clip.x0 then bx0 else clip.x0
    bx1 := if bx1 < clip.x1 then bx1 else clip.x1
    by0 := if by0 > clip.y0 then by0 else clip.y0
    by1 := if by1 < clip.y1 then by1 else clip.y1 }

/-- The rows of a band. -/
def rowsPerBand (bw : ℤ) : ℤ :=
  let bandRows := BAND_MAX_CELLS.tdiv bw
  let bandRows := if bandRows > BAND_ROWS then BAND_ROWS else bandRows
  if bandRows < 1 then 1 else bandRows

/-- The part of an edge between `ya0` and `yb1` that is in the row `r`. -/
def addEdgeRow (bx0 bw top : ℤ) (e : GfxEdge) (ya0 yb1 : ℤ) (m : Cells) (r : ℤ) : Cells :=
  let rowTop := r * 256
  let ya := if ya0 > rowTop then ya0 else rowTop
  let yb := if yb1 < rowTop + 256 then yb1 else rowTop + 256
  if ya ≥ yb then m
  else
    let xa := edgeXAt e ya - bx0 * 256
    let xb := edgeXAt e yb - bx0 * 256
    addRowPiece m ((r - top) * bw).toNat bw.toNat xa (ya - rowTop) xb (yb - rowTop) e.dir

/-- An edge is added to the cells of the band of `rows` rows from `top` on. -/
def addEdge (bx0 bw top rows : ℤ) (m : Cells) (e : GfxEdge) : Cells :=
  let bandTop := top * 256
  let bandBot := (top + rows) * 256
  if (e.y1 : ℤ) ≤ bandTop ∨ (e.y0 : ℤ) ≥ bandBot then m
  else
    let ya0 : ℤ := if (e.y0 : ℤ) > bandTop then e.y0 else bandTop
    let yb1 : ℤ := if (e.y1 : ℤ) < bandBot then e.y1 else bandBot
    -- The loop goes on as long as `r * 256 < yb1`.
    (countUp (floorDiv256 ya0) ((yb1 + 255) / 256) 1).foldl (addEdgeRow bx0 bw top e ya0 yb1) m

/-- The coverage of a pixel, from the coverage in cells. -/
def coverage (rule : GfxFillRule) (v : ℤ) : Byte :=
  let m := if v < 0 then -v else v
  let m := match rule with
    | .nonzero => if m > FULL then FULL else m
    | .evenodd =>
      let m := m % (2 * FULL)
      if m > FULL then 2 * FULL - m else m
  BitVec.ofInt 8 ((m * 255 + FULL / 2) / FULL)

/-- The sweep over a row, which sums up the cover. -/
def sweepRow (rule : GfxFillRule) (m : Cells) (off bw : ℕ) : List Byte :=
  ((List.range bw).foldl
    (fun (s : ℤ × List Byte) x =>
      let acc := s.1 + (m (off + x)).1
      (acc, s.2 ++ [coverage rule (acc * 512 - (m (off + x)).2)]))
    (0, [])).2

/-- `memset` of the first `n` cells. -/
def clearCells (m : Cells) (n : ℕ) : Cells := fun i => if i < n then (0, 0) else m i

/-- A band: the cells and the calls so far, with the cells and calls of the band that starts at the
row `top`. -/
def rasterBand (edges : List GfxEdge) (rule : GfxFillRule) (box : RasterBox) (bandRows : ℤ)
    (s : Cells × List Span) (top : ℤ) : Cells × List Span :=
  let bw := box.bx1 - box.bx0
  let rows := if box.by1 - top < bandRows then box.by1 - top else bandRows
  let m := edges.foldl (addEdge box.bx0 bw top rows) (clearCells s.1 (rows * bw).toNat)
  (m, s.2 ++ (countUp 0 rows 1).map fun r =>
    ⟨top + r, box.bx0, sweepRow rule m (r * bw).toNat bw.toNat⟩)

/-- The calls of the span function, in order. -/
def rasterSpans (edges : List GfxEdge) (rule : GfxFillRule) (box : RasterBox) (m : Cells) :
    List Span :=
  let bandRows := rowsPerBand (box.bx1 - box.bx0)
  ((countUp box.by0 box.by1 bandRows).foldl (rasterBand edges rule box bandRows) (m, [])).2

/-- The bytes of scratch memory that are needed. -/
def scratchNeed (bw : ℤ) : ℕ :=
  ((rowsPerBand bw).toNat * bw.toNat) * 2 * 4 + bw.toNat

/-- `gfxRasterFill`: the status, the size of the scratch memory after the call, and the context of
the span function after its calls. `answer` is the allocator's answer if more scratch memory is
needed, and `m` is what stands in it. -/
def gfxRasterFill {σ : Type*} (answer : Bool) (m : Cells) (scratchSize : ℕ) (edges : List GfxEdge)
    (clip : GfxRect) (rule : GfxFillRule) (fn : σ → Span → σ) (ctx : σ) : Status × ℕ × σ :=
  match edges with
  | [] => (.ok, scratchSize, ctx)
  | first :: _ =>
    if gfxRectIsEmpty clip then (.ok, scratchSize, ctx)
    else if edges.length > GFX_RASTER_MAX_EDGES then (.errUnsupported, scratchSize, ctx)
    else
      let box := rasterBox first edges clip
      if box.bx0 ≥ box.bx1 ∨ box.by0 ≥ box.by1 then (.ok, scratchSize, ctx)
      else
        let need := scratchNeed (box.bx1 - box.bx0)
        if ¬ scratchSize ≥ need ∧ answer = false then (.errNoMemory, scratchSize, ctx)
        else (.ok, if scratchSize ≥ need then scratchSize else need,
          (rasterSpans edges rule box m).foldl fn ctx)

end Bongos.Gfx
