import Bongos.Gfx.Raster

/-!
# Paths to edges

`gfxFlattenPath` of `flatten.c`. The arithmetic of the coordinates is that of `float`, of which
nothing is assumed here: it is a parameter (`FloatArith`), and what is proved holds for every such
arithmetic. Whatever it computes, `toFixed` clamps to the range of 24.8 fixed point.

A path is the list of its verbs, each with its points.
-/

namespace Bongos.Gfx

/-- The operations of `float`. -/
class FloatArith (F : Type*) where
  add : F → F → F
  sub : F → F → F
  mul : F → F → F
  div : F → F → F
  neg : F → F
  /-- `a < b`. -/
  lt : F → F → Bool
  /-- `a <= b`. -/
  le : F → F → Bool
  /-- A literal, or the value of an integer. -/
  lit : ℚ → F
  /-- The conversion to `int64_t`. -/
  trunc : F → ℤ

open FloatArith

variable {F : Type*} [FloatArith F]

def GFX_COORD_MAX : F := lit 1048576

def FIXED_LIMIT : ℤ := 2^30

def toFixed (v : F) (origin : I32) : Fixed :=
  let v := if lt GFX_COORD_MAX v then GFX_COORD_MAX
    else if lt v (neg GFX_COORD_MAX) then neg GFX_COORD_MAX else v
  let s := mul v (lit 256)
  let i := trunc s
  let frac := sub s (lit i)
  let i := if le (lit (1 / 2)) frac then i + 1 else if le frac (neg (lit (1 / 2))) then i - 1 else i
  let f := i + origin * 256
  if h : f > FIXED_LIMIT then ⟨FIXED_LIMIT, by decide⟩
  else if h' : f < -FIXED_LIMIT then ⟨-FIXED_LIMIT, by decide⟩
  else ⟨f, by unfold FIXED_LIMIT at h h'; omega⟩

/-- A verb of a path with its points. -/
inductive PathVerb (F : Type*) where
  | move (x y : F)
  | line (x y : F)
  | quad (cx cy x y : F)
  | cubic (c1x c1y c2x c2y x y : F)
  | close
  /-- Any other value of the verb. -/
  | other

/-- `GfxPath`, as `gfxFlattenPath` reads it. -/
structure GfxPath (F : Type*) where
  error : Status
  verbs : List (PathVerb F)

structure Flat where
  l : GfxEdgeList
  curX : Fixed
  curY : Fixed
  startX : Fixed
  startY : Fixed
  isOpen : Bool

variable (answers : ℕ → Bool)

def flatLine (f : Flat) (x y : Fixed) : Flat :=
  { f with l := gfxEdgeListAdd answers f.l f.curX f.curY x y, curX := x, curY := y }

def flatClose (f : Flat) : Flat :=
  if f.isOpen then { flatLine answers f f.startX f.startY with isOpen := false } else f

def absf (v : F) : F := if lt v (lit 0) then neg v else v

/-- The number of pieces of a cubic: the smallest that is good enough, and at most 256. -/
def cubicPieces (m : F) : ℕ :=
  (((List.range 255).map (· + 1)).find? fun n : ℕ =>
    ¬ lt (mul (mul (lit (n * n)) (lit (1 / 10))) (lit 4)) (mul (lit 3) m)).getD 256

/-- `gfxSubdivideCubic`: the points for which `fn` is called, in order. -/
def gfxSubdivideCubic (x0 y0 x1 y1 x2 y2 x3 y3 : F) : List (F × F) :=
  let second (a b c : F) := absf (add (sub a (mul (lit 2) b)) c)
  let m1 := add (second x0 x1 x2) (second y0 y1 y2)
  let m2 := add (second x1 x2 x3) (second y1 y2 y3)
  let n := cubicPieces (if lt m2 m1 then m1 else m2)
  ((List.range (n - 1)).map fun k =>
    let t := div (lit (k + 1)) (lit n)
    let u := sub (lit 1) t
    let b0 := mul (mul u u) u
    let b1 := mul (mul (mul (lit 3) u) u) t
    let b2 := mul (mul (mul (lit 3) u) t) t
    let b3 := mul (mul t t) t
    (add (add (add (mul b0 x0) (mul b1 x1)) (mul b2 x2)) (mul b3 x3),
      add (add (add (mul b0 y0) (mul b1 y1)) (mul b2 y2)) (mul b3 y3))) ++ [(x3, y3)]

def flatCubic (originX originY : I32) (f : Flat) (x0 y0 x1 y1 x2 y2 x3 y3 : F) : Flat :=
  (gfxSubdivideCubic x0 y0 x1 y1 x2 y2 x3 y3).foldl
    (fun f p => flatLine answers f (toFixed p.1 originX) (toFixed p.2 originY)) f

/-- The current point and the start of the subpath. -/
structure PathPoints (F : Type*) where
  cx : F
  cy : F
  sx : F
  sy : F

/-- The loop of `gfxFlattenPath`, from its state on. -/
def flattenVerbs (originX originY : I32) : List (PathVerb F) → Flat → PathPoints F → GfxEdgeList
  | [], f, _ => (flatClose answers f).l
  | v :: vs, f, p =>
    if f.l.error ≠ .ok then (flatClose answers f).l
    else match v with
      | .move x y =>
        let f := flatClose answers f
        let f := { f with
          curX := toFixed x originX
          startX := toFixed x originX
          curY := toFixed y originY
          startY := toFixed y originY
          isOpen := true }
        flattenVerbs originX originY vs f ⟨x, y, x, y⟩
      | .line x y =>
        flattenVerbs originX originY vs
          (flatLine answers f (toFixed x originX) (toFixed y originY)) { p with cx := x, cy := y }
      | .quad qx qy ex ey =>
        -- A quadratic curve is drawn as a cubic.
        let third : F := div (lit 2) (lit 3)
        let c1x := add p.cx (mul third (sub qx p.cx))
        let c1y := add p.cy (mul third (sub qy p.cy))
        let c2x := add ex (mul third (sub qx ex))
        let c2y := add ey (mul third (sub qy ey))
        flattenVerbs originX originY vs
          (flatCubic answers originX originY f p.cx p.cy c1x c1y c2x c2y ex ey)
          { p with cx := ex, cy := ey }
      | .cubic c1x c1y c2x c2y ex ey =>
        flattenVerbs originX originY vs
          (flatCubic answers originX originY f p.cx p.cy c1x c1y c2x c2y ex ey)
          { p with cx := ex, cy := ey }
      | .close =>
        flattenVerbs originX originY vs (flatClose answers f)
          { p with cx := p.sx, cy := p.sy }
      | .other => { f.l with error := .errInvalid }

/-- `gfxFlattenPath`: the edge list after it, with its error. -/
def gfxFlattenPath (p : GfxPath F) (originX originY : I32) (l : GfxEdgeList) : GfxEdgeList :=
  if p.error ≠ .ok then { l with error := p.error }
  else
    let zero : Fixed := ⟨0, zero_fixed⟩
    flattenVerbs answers originX originY p.verbs ⟨l, zero, zero, zero, zero, false⟩
      ⟨lit 0, lit 0, lit 0, lit 0⟩

end Bongos.Gfx
