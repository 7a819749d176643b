import Bongos.BoundedLoop
import Bongos.Gfx.Rect

/-!
# Damage regions

`region.c`: a region is a few rectangles inside a limit. The first `count` entries of the array are
a list. The array has one place more than a region may have rectangles, and nothing is kept in the
entries from `count` on. Every loop that merges rectangles is a `runLoop`, so an operation has a
result only if its loops end.
-/

namespace Bongos.Gfx

def GFX_REGION_MAX_RECTS : ℕ := 16

structure GfxRegion where
  rects : List GfxRect
  limit : GfxRect
  deriving DecidableEq

def gfxRegionInit (limit : GfxRect) : GfxRegion := ⟨[], limit⟩

def gfxRegionClear (g : GfxRegion) : GfxRegion := { g with rects := [] }

def overlaps (a b : GfxRect) : Prop :=
  (a.x0 : ℤ) < b.x1 ∧ (b.x0 : ℤ) < a.x1 ∧ (a.y0 : ℤ) < b.y1 ∧ (b.y0 : ℤ) < a.y1

instance (a b : GfxRect) : Decidable (overlaps a b) := inferInstanceAs (Decidable (_ ∧ _))

def contains (outer inner : GfxRect) : Prop := inner ≤ outer

instance (a b : GfxRect) : Decidable (contains a b) := inferInstanceAs (Decidable (_ ≤ _))

/-- `area`, a 64-bit number. -/
def area (r : GfxRect) : BitVec 64 :=
  let w := BitVec.ofInt 64 ((r.x1 : ℤ) - r.x0)
  let h := BitVec.ofInt 64 ((r.y1 : ℤ) - r.y0)
  if w ≠ 0 ∧ h > BitVec.allOnes 64 / w then BitVec.allOnes 64 else w * h

variable (rs : List GfxRect)

/-- `g->r[i]`. -/
def rectAt (i : ℕ) : GfxRect := rs.getD i emptyRect

/-- `removeAt`: the last rectangle takes the place of the one at `i`. -/
def removeAt (i : ℕ) : List GfxRect :=
  (rs.set i (rectAt rs (rs.length - 1))).dropLast

/-- The pairs of places, in the order in which the two nested loops take them. -/
def indexPairs (n : ℕ) : List (ℕ × ℕ) :=
  (List.range n).flatMap fun i => (List.range' (i + 1) (n - (i + 1))).map (i, ·)

/-- The rectangle at `i` becomes the union with the one at `j`, which is removed. -/
def mergeAt (i j : ℕ) : List GfxRect :=
  removeAt (rs.set i (gfxRectUnion (rectAt rs i) (rectAt rs j))) j

/-- A round of `resolveOverlaps`: the first two rectangles that overlap are merged. -/
def resolveStep : Option (List GfxRect) :=
  ((indexPairs rs.length).find? fun ij => overlaps (rectAt rs ij.1) (rectAt rs ij.2)).map
    fun ij => mergeAt rs ij.1 ij.2

def resolveOverlaps : Option (List GfxRect) :=
  runLoop resolveStep (rs.length + 1) rs

/-- A round of the first loop of `gfxRegionAdd`, with the new rectangle and those of the region. -/
def absorbStep (s : GfxRect × List GfxRect) : Option (GfxRect × List GfxRect) :=
  ((List.range s.2.length).find? fun i =>
      contains s.1 (rectAt s.2 i) ∨ overlaps s.1 (rectAt s.2 i)).map fun i =>
    if contains s.1 (rectAt s.2 i) then (s.1, removeAt s.2 i)
    else (gfxRectUnion s.1 (rectAt s.2 i), removeAt s.2 i)

/-- The area that a merge would add to the region. -/
def waste (i j : ℕ) : BitVec 64 :=
  let u := area (gfxRectUnion (rectAt rs i) (rectAt rs j))
  let sum := area (rectAt rs i) + area (rectAt rs j)
  if u > sum then u - sum else 0

/-- The search for the pair that wastes the least area: `best`, `bi` and `bj`. -/
def cheapestPair : BitVec 64 × ℕ × ℕ :=
  (indexPairs rs.length).foldl
    (fun best ij => if waste rs ij.1 ij.2 < best.1 then (waste rs ij.1 ij.2, ij) else best)
    (BitVec.allOnes 64, 0, 1)

/-- The last loop of `gfxRegionAdd`. -/
def shrinkLoop : ℕ → List GfxRect → Option (List GfxRect)
  | 0, _ => none
  | n + 1, rs =>
    if rs.length > GFX_REGION_MAX_RECTS then do
      let rs ← resolveOverlaps (mergeAt rs (cheapestPair rs).2.1 (cheapestPair rs).2.2)
      shrinkLoop n rs
    else some rs

def gfxRegionAdd (g : GfxRegion) (r : GfxRect) : Option GfxRegion :=
  let r := gfxRectIntersect r g.limit
  if gfxRectIsEmpty r then some g
  else if ∃ x ∈ g.rects, contains x r then some g
  else do
    let (r, rs) ← runLoop absorbStep (g.rects.length + 1) (r, g.rects)
    let rs ← shrinkLoop (rs.length + 2) (rs ++ [r])
    return { g with rects := rs }

/-- `gfxRegionUnion`. The source is copied first, so it may be the region itself. -/
def gfxRegionUnion (dst src : GfxRegion) : Option GfxRegion := src.rects.foldlM gfxRegionAdd dst

def gfxRegionIntersectRect (g : GfxRegion) (clip : GfxRect) : GfxRegion :=
  { g with rects := (g.rects.map (gfxRectIntersect · clip)).filter fun x => ¬ gfxRectIsEmpty x }

def shifted (r : GfxRect) (dx dy : I32) : GfxRect :=
  ⟨sat ((r.x0 : ℤ) + dx), sat ((r.y0 : ℤ) + dy), sat ((r.x1 : ℤ) + dx), sat ((r.y1 : ℤ) + dy)⟩

def gfxRegionTranslate (g : GfxRegion) (dx dy : I32) : Option GfxRegion := do
  let rs ← resolveOverlaps
    ((g.rects.map (shifted · dx dy)).filter fun t => ¬ gfxRectIsEmpty t)
  return ⟨rs, shifted g.limit dx dy⟩

def gfxRegionBounds (g : GfxRegion) : GfxRect := g.rects.foldl gfxRectUnion emptyRect

end Bongos.Gfx
