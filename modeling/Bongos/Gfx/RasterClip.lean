import Bongos.FallibleLoop
import Bongos.Gfx.RasterWeight
import Mathlib.Algebra.BigOperators.Ring.List

/-!
# Fills do not depend on the clip

The calls of the span function are the rows of the box, each with the coverage that the weights of
all edges give (`mem_rasterSpans`). A pixel of the clip outside the box has the weight 0, on the
right of the box because the polygons are closed, and an edge that the clip drops has no weight in
its rows. So the coverage of a pixel of the clip is that of all sides of the polygons
(`delivered_fillPolygons`).
-/

namespace Bongos.Gfx

open List

variable {e : GfxEdge} {edges : List GfxEdge} {m : Cells} {x n k : ℕ} {X Y t bx0 top rows : ℤ}
  {rule : GfxFillRule} {box : RasterBox} {clip : GfxRect}

/-! ## Edges -/

theorem floorDiv256_eq (v : ℤ) : floorDiv256 v = v / 256 := by
  unfold floorDiv256
  split_ifs with h
  · exact Int.tdiv_eq_ediv_of_nonneg h
  · rw [Int.tdiv_eq_ediv_of_nonneg (by omega)]
    omega

/-- What an edge adds to the pixel `X` of the row `Y`. -/
def weight (e : GfxEdge) (Y X : ℤ) : ℤ :=
  let ya := max (e.y0 : ℤ) (Y * 256)
  let yb := min (e.y1 : ℤ) (Y * 256 + 256)
  if ya < yb then
    e.dir * pieceWeight (min (edgeXAt e ya) (edgeXAt e yb)) (max (edgeXAt e ya) (edgeXAt e yb))
      (yb - ya) X
  else 0

theorem weight_eq_zero (h : (e.y1 : ℤ) ≤ Y * 256 ∨ Y * 256 + 256 ≤ (e.y0 : ℤ)) : weight e Y X = 0 :=
  if_neg (by omega)

variable {n' size : ℕ} {answers : ℕ → Bool} {polygons : List (List Vertex)}

theorem row_apart {c : ℕ} (hc : c < k) (hn : n' ≠ n) :
    n' * k + c < n * k ∨ n * k + k ≤ n' * k + c := by
  rcases Nat.lt_or_gt_of_ne hn with hlt | hlt
  · have hle := Nat.mul_le_mul_right k hlt
    rw [Nat.succ_mul] at hle
    omega
  · have hle := Nat.mul_le_mul_right k hlt
    rw [Nat.succ_mul] at hle
    omega

/-- The part of an edge in the row `top + n` changes that row only. -/
theorem rowWeight_addEdgeRow (hx : x < k) (hn : (n : ℤ) < rows) :
    rowWeight (addEdgeRow bx0 k top e (max (e.y0 : ℤ) (top * 256))
        (min (e.y1 : ℤ) ((top + rows) * 256)) m (top + n)) (n' * k) x =
      rowWeight m (n' * k) x + if top + n = top + n' then weight e (top + n) (x + bx0) else 0 := by
  have hya : (if max (e.y0 : ℤ) (top * 256) > (top + n) * 256 then max (e.y0 : ℤ) (top * 256)
      else (top + n) * 256) = max (e.y0 : ℤ) ((top + n) * 256) := by split_ifs <;> omega
  have hyb : (if min (e.y1 : ℤ) ((top + rows) * 256) < (top + n) * 256 + 256 then
      min (e.y1 : ℤ) ((top + rows) * 256) else (top + n) * 256 + 256) =
      min (e.y1 : ℤ) ((top + n) * 256 + 256) := by split_ifs <;> omega
  have hoff : ((top + n - top) * (k : ℤ)).toNat = n * k := by
    rw [add_sub_cancel_left, ← Nat.cast_mul, Int.toNat_natCast]
  unfold addEdgeRow weight
  simp only [hya, hyb, hoff, Int.toNat_natCast]
  generalize max (e.y0 : ℤ) ((top + n) * 256) = ya
  generalize min (e.y1 : ℤ) ((top + n) * 256 + 256) = yb
  split_ifs with hempty hrow hlt hrow
  · omega
  · simp
  · simp
  · obtain rfl : n = n' := by omega
    have hextent : extent (ya - (top + n) * 256) (yb - (top + n) * 256) = yb - ya := by
      rw [extent, if_pos (by omega)]
      omega
    have hmin : ∀ a b c : ℤ, min (a - c) (b - c) = min a b - c := by omega
    have hmax : ∀ a b c : ℤ, max (a - c) (b - c) = max a b - c := by omega
    rw [rowWeight_addRowPiece hx, hmin, hmax, hextent, pieceWeight_shift]
  · omega
  · rw [add_zero]
    exact rowWeight_congr fun c hc => addRowPiece_frame (by omega) (row_apart (by omega) (by omega))

/-- An edge adds its weight to every pixel of a band. -/
theorem rowWeight_addEdge (hx : x < k) (hn : (n : ℤ) < rows) :
    rowWeight (addEdge bx0 k top rows m e) (n * k) x =
      rowWeight m (n * k) x + weight e (top + n) (x + bx0) := by
  have hya0 : (if (e.y0 : ℤ) > top * 256 then (e.y0 : ℤ) else top * 256) =
      max (e.y0 : ℤ) (top * 256) := by
    split_ifs <;> omega
  have hyb1 : (if (e.y1 : ℤ) < (top + rows) * 256 then (e.y1 : ℤ) else (top + rows) * 256) =
      min (e.y1 : ℤ) ((top + rows) * 256) := by split_ifs <;> omega
  unfold addEdge
  simp only [hya0, hyb1, floorDiv256_eq]
  split_ifs with hout
  · rw [weight_eq_zero (by omega), add_zero]
  set L :=
    countUp (max (e.y0 : ℤ) (top * 256) / 256) ((min (e.y1 : ℤ) ((top + rows) * 256) + 255) / 256) 1
  have hstep : ∀ m, ∀ r ∈ L, rowWeight (addEdgeRow bx0 k top e (max (e.y0 : ℤ) (top * 256))
      (min (e.y1 : ℤ) ((top + rows) * 256)) m r) (n * k) x =
        rowWeight m (n * k) x + if r = top + n then weight e r (x + bx0) else 0 := by
    intro m r hr
    rw [mem_countUp_one] at hr
    obtain ⟨i, rfl⟩ : ∃ i : ℕ, r = top + i := ⟨(r - top).toNat, by omega⟩
    exact rowWeight_addEdgeRow hx (by omega)
  rw [foldl_add (g := fun m => rowWeight m (n * k) x) hstep,
    ← sum_toFinset _ (nodup_countUp Int.one_pos), Finset.sum_ite_eq']
  simp only [mem_toFinset, mem_countUp_one]
  split_ifs with hin
  · rfl
  · rw [weight_eq_zero (by omega)]

/-! ## Bands -/

/-- The sum of the weights of the edges. -/
def totalWeight (edges : List GfxEdge) (Y X : ℤ) : ℤ := (edges.map (weight · Y X)).sum

theorem sweepRow_eq (off bw : ℕ) :
    sweepRow rule m off bw = (List.range bw).map fun x => coverage rule (rowWeight m off x) := by
  suffices hfold : (List.range bw).foldl
      (fun (s : ℤ × List Byte) x => (s.1 + (m (off + x)).1,
        s.2 ++ [coverage rule ((s.1 + (m (off + x)).1) * 512 - (m (off + x)).2)])) (0, []) =
      (∑ c ∈ Finset.range bw, (m (off + c)).1,
        (List.range bw).map fun x => coverage rule (rowWeight m off x)) from
    congrArg Prod.snd hfold
  induction bw with
  | zero => rfl
  | succ bw ih =>
    rw [range_succ, foldl_append, ih, map_append, foldl_cons, foldl_nil,
      Finset.sum_range_succ, map_singleton, rowWeight, Finset.sum_range_succ, mul_comm]

/-- The call of the span function for the row `y`. -/
def rowSpan (edges : List GfxEdge) (rule : GfxFillRule) (box : RasterBox) (y : ℤ) : Span :=
  ⟨y, box.bx0, (List.range (box.bx1 - box.bx0).toNat).map fun x : ℕ =>
    coverage rule (totalWeight edges y (x + box.bx0))⟩

theorem rowWeight_clearCells {i : ℕ} (h : n * k + x < i) :
    rowWeight (clearCells m i) (n * k) x = 0 := by
  have hzero : ∀ c ≤ x, clearCells m i (n * k + c) = (0, 0) := fun c hc => if_pos (by omega)
  unfold rowWeight
  rw [hzero x le_rfl, Finset.sum_eq_zero fun c hc => by
    rw [hzero c (Nat.le_of_lt_succ (Finset.mem_range.1 hc))]]
  rfl

/-- The cells of a band hold the weights of all edges. What stood in them before does not matter. -/
theorem rowWeight_band (hx : x < k) (hn : (n : ℤ) < rows) :
    rowWeight (edges.foldl (addEdge bx0 k top rows) (clearCells m (rows * k).toNat)) (n * k) x =
      totalWeight edges (top + n) (x + bx0) := by
  have hcells : n * k + x < (rows * k).toNat := by
    obtain ⟨j, rfl⟩ : ∃ j : ℕ, rows = j := ⟨rows.toNat, by omega⟩
    have hle : (n + 1) * k ≤ j * k := Nat.mul_le_mul_right k (by omega)
    rw [Nat.succ_mul] at hle
    omega
  have hstep : ∀ m, ∀ e ∈ edges, rowWeight (addEdge bx0 k top rows m e) (n * k) x =
      rowWeight m (n * k) x + weight e (top + n) (x + bx0) := fun m e _ => rowWeight_addEdge hx hn
  rw [foldl_add (g := fun m => rowWeight m (n * k) x) hstep, rowWeight_clearCells hcells, zero_add,
    totalWeight]

/-- The calls for the rows of a band. -/
def bandSpans (edges : List GfxEdge) (rule : GfxFillRule) (box : RasterBox) (bandRows top : ℤ) :
    List Span :=
  (countUp 0 (min (box.by1 - top) bandRows) 1).map fun r => rowSpan edges rule box (top + r)

/-- A band calls the span function for its rows. -/
theorem rasterBand_snd (hbox : box.bx0 < box.bx1) (bandRows : ℤ) (s : Cells × List Span) :
    (rasterBand edges rule box bandRows s top).2 =
      s.2 ++ bandSpans edges rule box bandRows top := by
  obtain ⟨k, hk⟩ : ∃ k : ℕ, box.bx1 - box.bx0 = k := ⟨(box.bx1 - box.bx0).toNat, by omega⟩
  have hrows : (if box.by1 - top < bandRows then box.by1 - top else bandRows) =
      min (box.by1 - top) bandRows := by split_ifs <;> omega
  unfold rasterBand bandSpans
  simp only [hrows, hk]
  refine congrArg _ (map_congr_left fun r hr => ?_)
  rw [mem_countUp_one] at hr
  obtain ⟨n, rfl⟩ : ∃ n : ℕ, r = n := ⟨r.toNat, by omega⟩
  have hoff : ((n : ℤ) * k).toNat = n * k := by rw [← Nat.cast_mul, Int.toNat_natCast]
  rw [rowSpan, hoff, hk, Int.toNat_natCast, sweepRow_eq]
  refine congrArg _ (map_congr_left fun x hx => ?_)
  rw [rowWeight_band (mem_range.1 hx) hr.2]

theorem rowsPerBand_pos (bw : ℤ) : 0 < rowsPerBand bw := by
  unfold rowsPerBand
  dsimp only
  split_ifs <;> omega

/-- The calls, band by band. -/
theorem rasterSpans_eq (hbox : box.bx0 < box.bx1) {bandRows : ℤ}
    (h : rowsPerBand (box.bx1 - box.bx0) = bandRows) : rasterSpans edges rule box m =
      (countUp box.by0 box.by1 bandRows).flatMap (bandSpans edges rule box bandRows) := by
  have hspans : ∀ (tops : List ℤ) (st : Cells × List Span),
      (tops.foldl (rasterBand edges rule box bandRows) st).2 =
        st.2 ++ tops.flatMap (bandSpans edges rule box bandRows) := by
    intro tops
    induction tops with
    | nil => simp
    | cons top tops ih =>
      intro st
      rw [foldl_cons, ih, rasterBand_snd hbox, flatMap_cons, append_assoc]
  unfold rasterSpans
  rw [h, hspans, nil_append]

/-- The rows are in order, so the span function is called at most once for each. -/
theorem rasterSpans_rows (hbox : box.bx0 < box.bx1) :
    (rasterSpans edges rule box m).Pairwise (·.y < ·.y) := by
  have hpos := rowsPerBand_pos (box.bx1 - box.bx0)
  rw [rasterSpans_eq hbox rfl, pairwise_flatMap]
  constructor
  · intro top _
    refine (countUp_pairwise Int.one_pos).map _ fun r r' h => ?_
    exact Int.add_lt_add_left (by omega) top
  · -- A band ends in front of the next one.
    refine (countUp_pairwise hpos).imp fun h s hs t ht => ?_
    obtain ⟨r, hr, rfl⟩ := mem_map.1 hs
    obtain ⟨r', hr', rfl⟩ := mem_map.1 ht
    rw [mem_countUp_one] at hr hr'
    dsimp only [rowSpan]
    omega

/-- The span function is called for each row of the box. -/
theorem mem_rasterSpans (hbox : box.bx0 < box.bx1) {s : Span} : s ∈ rasterSpans edges rule box m ↔
      ∃ y, (box.by0 ≤ y ∧ y < box.by1) ∧ s = rowSpan edges rule box y := by
  set bandRows := rowsPerBand (box.bx1 - box.bx0) with hbandRows
  have hpos : 0 < bandRows := rowsPerBand_pos _
  rw [rasterSpans_eq hbox hbandRows.symm]
  simp only [mem_flatMap, bandSpans, mem_map, mem_countUp hpos, mem_countUp_one]
  constructor
  · rintro ⟨top, ⟨htop, i, rfl⟩, r, hr, rfl⟩
    have hi : 0 ≤ (i : ℤ) * bandRows := mul_nonneg (by omega) (by omega)
    exact ⟨_, by omega, rfl⟩
  · -- The row `y` is in the band `(y - by0) / bandRows`.
    rintro ⟨y, hy, rfl⟩
    have hdiv := Int.mul_ediv_add_emod (y - box.by0) bandRows
    have hmod := Int.emod_nonneg (y - box.by0) hpos.ne'
    have hmod' := Int.emod_lt_of_pos (y - box.by0) hpos
    have hquot : 0 ≤ (y - box.by0) / bandRows := Int.ediv_nonneg (by omega) (by omega)
    have hcomm : bandRows * ((y - box.by0) / bandRows) = (y - box.by0) / bandRows * bandRows :=
      mul_comm ..
    refine ⟨box.by0 + (y - box.by0) / bandRows * bandRows, ⟨by omega,
      ((y - box.by0) / bandRows).toNat, by rw [Int.toNat_of_nonneg hquot]⟩,
      (y - box.by0) % bandRows, by omega, congrArg _ (by omega)⟩

/-! ## Pixels outside the box -/

/-- An edge stays between the abscissas of its ends. -/
theorem edgeXAt_mem {y : ℤ} (h : (e.y0 : ℤ) ≤ y) (h' : y ≤ e.y1) :
    min (e.x0 : ℤ) e.x1 ≤ edgeXAt e y ∧ edgeXAt e y ≤ max (e.x0 : ℤ) e.x1 := by
  have heq : edgeXAt e y = segYAtX e.y0 e.x0 e.y1 e.x1 y := rfl
  have hlo := passed_mono e.y0_lt_y1 extent_nonneg le_rfl h h' (h := extent e.x0 e.x1)
  have hhi := passed_mono e.y0_lt_y1 extent_nonneg h h' le_rfl (h := extent e.x0 e.x1)
  have hy := e.y0_lt_y1
  rw [show passed (e.y0 : ℤ) e.y1 (extent e.x0 e.x1) e.y0 = 0 by simp [passed]] at hlo
  rw [show passed (e.y0 : ℤ) e.y1 (extent e.x0 e.x1) e.y1 = extent e.x0 e.x1 by
    rw [passed, if_neg (by omega), if_pos le_rfl]] at hhi
  rw [heq, segYAtX_eq hy h h']
  generalize passed (e.y0 : ℤ) e.y1 (extent e.x0 e.x1) y = q at *
  unfold extent at hhi
  split_ifs at hhi ⊢ <;> omega

/-- The part of an ordinate that is in the row `Y`. -/
def rowClamp (Y y : ℤ) : ℤ := max (Y * 256) (min (Y * 256 + 256) y)

/-- The signed height of an edge in the row `Y`. -/
def rise (e : GfxEdge) (Y : ℤ) : ℤ := e.dir * (rowClamp Y e.y1 - rowClamp Y e.y0)

theorem weight_left (h : (X + 1) * 256 ≤ min (e.x0 : ℤ) e.x1) : weight e Y X = 0 := by
  unfold weight
  dsimp only
  split_ifs with hrow
  · have ha := edgeXAt_mem (e := e) (y := max (e.y0 : ℤ) (Y * 256)) (by omega) (by omega)
    have hb := edgeXAt_mem (e := e) (y := min (e.y1 : ℤ) (Y * 256 + 256)) (by omega) (by omega)
    rw [pieceWeight_left (by omega) (by omega), mul_zero]
  · rfl

theorem weight_right (h : max (e.x0 : ℤ) e.x1 ≤ X * 256) : weight e Y X = 512 * rise e Y := by
  have hy := e.y0_lt_y1
  unfold weight rise rowClamp
  dsimp only
  split_ifs with hrow
  · have ha := edgeXAt_mem (e := e) (y := max (e.y0 : ℤ) (Y * 256)) (by omega) (by omega)
    have hb := edgeXAt_mem (e := e) (y := min (e.y1 : ℤ) (Y * 256 + 256)) (by omega) (by omega)
    rw [pieceWeight_right (by omega) (by omega),
      show max (Y * 256) (min (Y * 256 + 256) (e.y1 : ℤ)) = min (e.y1 : ℤ) (Y * 256 + 256) by omega,
      show max (Y * 256) (min (Y * 256 + 256) (e.y0 : ℤ)) = max (e.y0 : ℤ) (Y * 256) by omega]
    ring
  · rw [show max (Y * 256) (min (Y * 256 + 256) (e.y1 : ℤ)) =
      max (Y * 256) (min (Y * 256 + 256) (e.y0 : ℤ)) by omega]
    simp

/-- The box of the edges is around them. -/
structure EdgeBox.Around (b : EdgeBox) (e : GfxEdge) : Prop where
  left : b.minX ≤ min (e.x0 : ℤ) e.x1
  right : max (e.x0 : ℤ) e.x1 ≤ b.maxX
  above : b.minY ≤ e.y0
  below : (e.y1 : ℤ) ≤ b.maxY

theorem around_grow (b : EdgeBox) (e : GfxEdge) :
    (b.grow e).Around e ∧ ∀ e', b.Around e' → (b.grow e).Around e' := by
  unfold EdgeBox.grow
  refine ⟨⟨?_, ?_, ?_, ?_⟩, fun e' ⟨h1, h2, h3, h4⟩ => ⟨?_, ?_, ?_, ?_⟩⟩
  all_goals
    dsimp only
    split_ifs <;> omega

theorem around_foldl_grow (b : EdgeBox) : ∀ e ∈ edges, (edges.foldl EdgeBox.grow b).Around e := by
  have hkeep : ∀ (l : List GfxEdge) (b : EdgeBox) (e' : GfxEdge), b.Around e' →
      (l.foldl EdgeBox.grow b).Around e' := by
    intro l
    induction l with
    | nil => exact fun b e' h => h
    | cons e l ih => exact fun b e' h => ih _ _ ((around_grow b e).2 e' h)
  induction edges generalizing b with
  | nil => simp
  | cons e edges ih =>
    refine forall_mem_cons.2 ⟨?_, fun e' he' => ih _ e' he'⟩
    exact hkeep edges _ e (around_grow b e).1

/-- The pixel is in the box. -/
def RasterBox.Mem (box : RasterBox) (p : ℤ × ℤ) : Prop :=
  (box.bx0 ≤ p.1 ∧ p.1 < box.bx1) ∧ box.by0 ≤ p.2 ∧ p.2 < box.by1

/-- A pixel of the clip outside the box has no weight, if the edges go down as much as up. -/
theorem totalWeight_outside {first : GfxEdge} (hclosed : (edges.map (rise · Y)).sum = 0)
    (hclip : clip.Mem (X, Y)) (hbox : ¬ (rasterBox first edges clip).Mem (X, Y)) :
    totalWeight edges Y X = 0 := by
  have haround : ∀ e ∈ edges, (edges.foldl EdgeBox.grow
      ⟨first.x0, first.x0, first.y0, first.y1⟩).Around e := around_foldl_grow _
  unfold RasterBox.Mem rasterBox at hbox
  simp only [floorDiv256_eq] at hbox
  unfold GfxRect.Mem at hclip
  generalize edges.foldl EdgeBox.grow ⟨first.x0, first.x0, first.y0, first.y1⟩ = b at haround hbox
  have hcases : (X + 1) * 256 ≤ b.minX ∨ b.maxX ≤ X * 256 ∨ Y * 256 + 256 ≤ b.minY ∨
      b.maxY ≤ Y * 256 := by
    split_ifs at hbox <;> omega
  unfold totalWeight
  rcases hcases with hX | hX | hY | hY
  · exact sum_eq_zero (by simpa using fun e he => weight_left (hX.trans (haround e he).left))
  · -- Right of all edges the sum of their heights is left.
    have hright : edges.map (weight · Y X) = edges.map (fun e => 512 * rise e Y) :=
      map_congr_left fun e he => weight_right ((haround e he).right.trans hX)
    rw [hright, sum_map_mul_left, hclosed, mul_zero]
  · exact sum_eq_zero (by
      simpa using fun e he => weight_eq_zero (.inr (hY.trans (haround e he).above)))
  · exact sum_eq_zero (by
      simpa using fun e he => weight_eq_zero (.inl ((haround e he).below.trans hY)))

/-! ## Polygons -/

/-- A vertex. -/
abbrev Vertex := Fixed × Fixed

/-- The sides of a closed polygon: from each vertex to the next, and from the last to the first. -/
def sides (polygon : List Vertex) : List (Vertex × Vertex) := polygon.zip (polygon.rotate 1)

/-- The edge of a side. -/
def sideEdge (s : Vertex × Vertex) : Option GfxEdge := edgeBetween s.1.1 s.1.2 s.2.1 s.2.2

/-- The edge list of some segments, built by `gfxEdgeListAdd`. -/
def segmentEdges (answers : ℕ → Bool) (clip : GfxRect) (ss : List (Vertex × Vertex)) :
    GfxEdgeList :=
  ss.foldl (fun l s => gfxEdgeListAdd answers l s.1.1 s.1.2 s.2.1 s.2.2) (gfxEdgeListInit clip)

/-- The calls of the span function when segments are filled, or the error. The last answer of the
allocator is for the scratch memory. -/
def fillSegments (answers : ℕ → Bool) (m : Cells) (scratchSize : ℕ) (clip : GfxRect)
    (rule : GfxFillRule) (ss : List (Vertex × Vertex)) : Except Status (List Span) :=
  let l := segmentEdges answers clip ss
  if l.error ≠ .ok then .error l.error
  else
    match gfxRasterFill (answers l.requests) m scratchSize l.edges clip rule
      (fun ss s => ss ++ [s]) [] with
    | (.ok, _, spans) => .ok spans
    | (st, _, _) => .error st

/-- The fill of the sides of polygons. -/
def fillPolygons (answers : ℕ → Bool) (m : Cells) (scratchSize : ℕ) (clip : GfxRect)
    (rule : GfxFillRule) (polygons : List (List Vertex)) : Except Status (List Span) :=
  fillSegments answers m scratchSize clip rule (polygons.flatMap sides)

/-- The coverage that a pixel gets. A pixel that is not delivered has the coverage 0. -/
def delivered (spans : List Span) (p : ℤ × ℤ) : Byte :=
  match spans.find? fun s => s.y = p.2 ∧ s.x ≤ p.1 ∧ p.1 < s.x + s.cov.length with
  | some s => s.cov.getD (p.1 - s.x).toNat 0
  | none => 0

theorem gfxEdgeListAdd_error {l : GfxEdgeList} {s : Vertex × Vertex}
    (h : l.error ≠ .ok) : gfxEdgeListAdd answers l s.1.1 s.1.2 s.2.1 s.2.2 = l := if_pos h

/-- A call that does not fail adds the edge, unless it is outside the clip. -/
theorem gfxEdgeListAdd_edges {l : GfxEdgeList} {s : Vertex × Vertex}
    (h : (gfxEdgeListAdd answers l s.1.1 s.1.2 s.2.1 s.2.2).error = .ok) :
    l.error = .ok ∧ (gfxEdgeListAdd answers l s.1.1 s.1.2 s.2.1 s.2.2).clip = l.clip ∧
      (gfxEdgeListAdd answers l s.1.1 s.1.2 s.2.1 s.2.2).edges =
        l.edges ++ (sideEdge s).toList.filter fun e => ¬ e.Outside l.clip := by
  by_cases hl : l.error = .ok
  swap
  · rw [gfxEdgeListAdd_error hl] at h
    exact absurd h hl
  refine ⟨hl, ?_⟩
  unfold gfxEdgeListAdd at h ⊢
  unfold sideEdge
  cases hedge : edgeBetween s.1.1 s.1.2 s.2.1 s.2.2 with
  | none => simp
  | some e =>
    dsimp only at h ⊢
    split_ifs at h ⊢ with hout
    all_goals simp_all

/-- The edges of the segments that are not outside the clip. -/
def clippedEdges (clip : GfxRect) (ss : List (Vertex × Vertex)) : List GfxEdge :=
  (ss.filterMap sideEdge).filter fun e => ¬ e.Outside clip

theorem clippedEdges_cons (s : Vertex × Vertex) (ss : List (Vertex × Vertex)) :
    clippedEdges clip (s :: ss) =
      ((sideEdge s).toList.filter fun e => ¬ e.Outside clip) ++ clippedEdges clip ss := by
  unfold clippedEdges
  rw [← filter_append]
  cases hs : sideEdge s with
  | none => rw [filterMap_cons_none hs]; rfl
  | some e => rw [filterMap_cons_some hs]; rfl

/-- An edge list without an error has the edges that are not outside the clip. -/
theorem segmentEdges_eq {ss : List (Vertex × Vertex)}
    (h : (segmentEdges answers clip ss).error = .ok) :
    (segmentEdges answers clip ss).edges = clippedEdges clip ss := by
  have hfold : ∀ (ss : List (Vertex × Vertex)) (l : GfxEdgeList),
      (ss.foldl (fun l s => gfxEdgeListAdd answers l s.1.1 s.1.2 s.2.1 s.2.2) l).error = .ok →
      l.error = .ok ∧
        (ss.foldl (fun l s => gfxEdgeListAdd answers l s.1.1 s.1.2 s.2.1 s.2.2) l).edges =
          l.edges ++ clippedEdges l.clip ss := by
    intro ss
    induction ss with
    | nil => simp [clippedEdges]
    | cons s ss ih =>
      intro l h
      obtain ⟨herr, hedges⟩ := ih _ h
      obtain ⟨hl, hclip, hadd⟩ := gfxEdgeListAdd_edges herr
      refine ⟨hl, ?_⟩
      rw [foldl_cons, hedges, hadd, hclip, append_assoc, clippedEdges_cons]
  exact (hfold ss _ h).2

theorem sum_map_filter {α : Type*} {l : List α} {keep : α → Bool} {f : α → ℤ}
    (h : ∀ a ∈ l, keep a = false → f a = 0) : ((l.filter keep).map f).sum = (l.map f).sum := by
  induction l with
  | nil => rfl
  | cons a l ih =>
    obtain ⟨ha, hl⟩ := forall_mem_cons.1 h
    cases hkeep : keep a with
    | true => rw [filter_cons_of_pos hkeep, map_cons, map_cons, sum_cons,
        sum_cons, ih hl]
    | false => rw [filter_cons_of_neg (by simp [hkeep]), map_cons, sum_cons, ha hkeep,
        zero_add, ih hl]

theorem rise_eq_zero (h : (e.y1 : ℤ) ≤ Y * 256 ∨ Y * 256 + 256 ≤ (e.y0 : ℤ)) : rise e Y = 0 := by
  have hy := e.y0_lt_y1
  unfold rise rowClamp
  rw [show max (Y * 256) (min (Y * 256 + 256) (e.y1 : ℤ)) =
    max (Y * 256) (min (Y * 256 + 256) (e.y0 : ℤ)) by omega, sub_self, mul_zero]

/-- The edge of a side rises by the difference of its ends. -/
theorem rise_sideEdge (s : Vertex × Vertex) :
    ((sideEdge s).toList.map (rise · Y)).sum = rowClamp Y s.2.2 - rowClamp Y s.1.2 := by
  unfold sideEdge edgeBetween
  split_ifs with heq hgt
  · simp [heq]
  · simp [rise]
  · simp [rise]

theorem sum_zip_sub {α : Type*} {f : α → ℤ} {l l' : List α} (h : l.length = l'.length) :
    ((l.zip l').map fun s => f s.2 - f s.1).sum = (l'.map f).sum - (l.map f).sum := by
  induction l generalizing l' with
  | nil =>
    rw [length_eq_zero_iff.1 h.symm]
    rfl
  | cons a l ih =>
    obtain ⟨b, l', rfl⟩ := exists_cons_of_length_eq_add_one h.symm
    simp only [zip_cons_cons, map_cons, sum_cons, ih (Nat.succ.inj h)]
    ring

/-- A closed polygon goes down as much as up. -/
theorem sum_rise_sides :
    (((polygons.flatMap sides).filterMap sideEdge).map (rise · Y)).sum = 0 := by
  have hsides : ∀ ss : List (Vertex × Vertex), ((ss.filterMap sideEdge).map (rise · Y)).sum =
      (ss.map fun s => rowClamp Y s.2.2 - rowClamp Y s.1.2).sum := by
    intro ss
    induction ss with
    | nil => rfl
    | cons s ss ih =>
      have hfirst := rise_sideEdge (Y := Y) s
      rw [map_cons, sum_cons, ← ih, ← hfirst]
      cases hs : sideEdge s with
      | none => simp [filterMap_cons_none hs]
      | some e => simp [filterMap_cons_some hs]
  rw [hsides]
  induction polygons with
  | nil => rfl
  | cons polygon polygons ih =>
    rw [flatMap_cons, map_append, sum_append, ih, add_zero]
    -- The second ends of the sides are the first ends, in another order.
    have hperm := ((rotate_perm polygon 1).map fun v : Vertex => rowClamp Y v.2).sum_eq
    have hlen : polygon.length = (polygon.rotate 1).length := (length_rotate ..).symm
    rw [sides, sum_zip_sub (f := fun v : Vertex => rowClamp Y v.2) hlen, hperm, sub_self]

/-! ## Fills -/

theorem coverage_zero : coverage rule 0 = 0 := by
  cases rule <;> decide

/-- The calls of the span function in a fill that succeeds. -/
def fillSpans (m : Cells) (edges : List GfxEdge) (clip : GfxRect) (rule : GfxFillRule) :
    List Span :=
  match edges with
  | [] => []
  | first :: _ =>
    let box := rasterBox first edges clip
    if gfxRectIsEmpty clip ∨ box.bx0 ≥ box.bx1 ∨ box.by0 ≥ box.by1 then []
    else rasterSpans edges rule box m

/-- `gfxRasterFill` calls the span function only if it succeeds. -/
theorem gfxRasterFill_spec {σ : Type*} {answer : Bool} {size' : ℕ} {fn : σ → Span → σ}
    {ctx ctx' : σ} {st : Status}
    (h : gfxRasterFill answer m size edges clip rule fn ctx = (st, size', ctx')) :
    (st = .ok → ctx' = (fillSpans m edges clip rule).foldl fn ctx) ∧ (st ≠ .ok → ctx' = ctx) := by
  cases edges with
  | nil =>
    obtain ⟨rfl, -, rfl⟩ := by simpa [gfxRasterFill] using h
    exact ⟨fun _ => rfl, fun _ => rfl⟩
  | cons first rest =>
    unfold gfxRasterFill at h
    unfold fillSpans
    dsimp only at h ⊢
    set box := rasterBox first (first :: rest) clip
    by_cases hempty : gfxRectIsEmpty clip
    · rw [if_pos hempty] at h
      cases h
      exact ⟨fun _ => by rw [if_pos (.inl hempty)]; rfl, fun _ => rfl⟩
    rw [if_neg hempty] at h
    by_cases hmany : (first :: rest).length > GFX_RASTER_MAX_EDGES
    · rw [if_pos hmany] at h
      cases h
      exact ⟨nofun, fun _ => rfl⟩
    rw [if_neg hmany] at h
    by_cases hbox : box.bx0 ≥ box.bx1 ∨ box.by0 ≥ box.by1
    · rw [if_pos hbox] at h
      cases h
      exact ⟨fun _ => by rw [if_pos (.inr hbox)]; rfl, fun _ => rfl⟩
    rw [if_neg hbox] at h
    rw [if_neg (not_or.2 ⟨hempty, hbox⟩)]
    by_cases halloc : ¬ size ≥ scratchNeed (box.bx1 - box.bx0) ∧ answer = false
    · rw [if_pos halloc] at h
      cases h
      exact ⟨nofun, fun _ => rfl⟩
    · rw [if_neg halloc] at h
      cases h
      exact ⟨fun _ => rfl, fun hst => absurd rfl hst⟩

/-- The calls are for the rows of the box. -/
theorem mem_fillSpans_cons {first : GfxEdge} {rest : List GfxEdge} {s : Span}
    (h : rasterBox first (first :: rest) clip = box) :
    s ∈ fillSpans m (first :: rest) clip rule ↔ ¬ gfxRectIsEmpty clip ∧ box.bx0 < box.bx1 ∧
      ∃ y, (box.by0 ≤ y ∧ y < box.by1) ∧ s = rowSpan (first :: rest) rule box y := by
  unfold fillSpans
  dsimp only
  rw [h]
  split_ifs with hnone
  · refine ⟨fun hs => absurd hs not_mem_nil, fun ⟨hclip, hx, y, hy, _⟩ => ?_⟩
    exact absurd hnone (not_or.2 ⟨hclip, by omega⟩)
  · rw [not_or, not_or, not_le] at hnone
    rw [mem_rasterSpans hnone.2.1]
    exact ⟨fun hs => ⟨hnone.1, hnone.2.1, hs⟩, fun hs => hs.2.2⟩

theorem mem_clip_of_mem_rasterBox {first : GfxEdge} {p : ℤ × ℤ}
    (h : (rasterBox first edges clip).Mem p) : clip.Mem p := by
  unfold RasterBox.Mem rasterBox at h
  unfold GfxRect.Mem
  dsimp only at h
  split_ifs at h <;> omega

theorem length_rowSpan (y : ℤ) (h : box.bx0 < box.bx1) :
    ((rowSpan edges rule box y).cov.length : ℤ) = box.bx1 - box.bx0 := by
  rw [rowSpan, length_map, length_range]
  omega

theorem getD_rowSpan (y : ℤ) (h : box.bx0 ≤ X) (h' : X < box.bx1) :
    (rowSpan edges rule box y).cov.getD (X - box.bx0).toNat 0 =
      coverage rule (totalWeight edges y X) := by
  rw [rowSpan, getD_eq_getElem?_getD, getElem?_map, getElem?_range (by omega),
    Option.map_some, Option.getD_some, show ((X - box.bx0).toNat : ℤ) + box.bx0 = X by omega]

/-- The coverage of a pixel of the clip is that of all edges. The others are not delivered. -/
theorem delivered_fillSpans (hclosed : clip.Mem (X, Y) → (edges.map (rise · Y)).sum = 0) :
    delivered (fillSpans m edges clip rule) (X, Y) =
      if clip.Mem (X, Y) then coverage rule (totalWeight edges Y X) else 0 := by
  cases edges with
  | nil =>
    rw [totalWeight, map_nil, sum_nil, coverage_zero, ite_self]
    rfl
  | cons first rest =>
    set box := rasterBox first (first :: rest) clip with hbox
    unfold delivered
    cases hfind : (fillSpans m (first :: rest) clip rule).find? fun s =>
        s.y = Y ∧ s.x ≤ X ∧ X < s.x + s.cov.length with
    | some s =>
      -- A span that has the pixel is that of its row.
      obtain ⟨-, hlt, y, hy, rfl⟩ := (mem_fillSpans_cons rfl).1 (mem_of_find?_eq_some hfind)
      have hat := find?_some hfind
      rw [decide_eq_true_eq, length_rowSpan y hlt] at hat
      obtain ⟨rfl, hX, hX'⟩ : y = Y ∧ box.bx0 ≤ X ∧ X < box.bx0 + (box.bx1 - box.bx0) := hat
      rw [add_sub_cancel] at hX'
      rw [if_pos (mem_clip_of_mem_rasterBox ⟨⟨hX, hX'⟩, hy⟩)]
      exact getD_rowSpan y hX hX'
    | none =>
      split_ifs with hclip
      swap
      · rfl
      have houtside : ¬ box.Mem (X, Y) := by
        intro hin
        have hlt : box.bx0 < box.bx1 := hin.1.1.trans_lt hin.1.2
        have hright : X < box.bx0 + (box.bx1 - box.bx0) := by
          rw [add_sub_cancel]
          exact hin.1.2
        have hmem : rowSpan (first :: rest) rule box Y ∈ fillSpans m (first :: rest) clip rule :=
          (mem_fillSpans_cons rfl).2 ⟨not_isEmpty_iff.2 ⟨_, hclip⟩, hlt, Y, hin.2, rfl⟩
        refine find?_eq_none.1 hfind _ hmem (decide_eq_true ⟨rfl, hin.1.1, ?_⟩)
        rw [length_rowSpan Y hlt]
        exact hright
      rw [totalWeight_outside (hclosed hclip) hclip houtside, coverage_zero]

/-- The segments go down as much as up. -/
def Level (ss : List (Vertex × Vertex)) : Prop :=
  ∀ Y, ((ss.filterMap sideEdge).map (rise · Y)).sum = 0

section

variable {ss : List (Vertex × Vertex)} {spans : List Span}
  (hfill : fillSegments answers m size clip rule ss = .ok spans)

include hfill

/-- A fill that succeeds makes the calls for the edges that the clip does not drop. -/
theorem fillSegments_spans : spans = fillSpans m (clippedEdges clip ss) clip rule := by
  unfold fillSegments at hfill
  dsimp only at hfill
  split_ifs at hfill with herror
  rw [not_not] at herror
  have hedges := segmentEdges_eq herror
  set l := segmentEdges answers clip ss
  obtain ⟨st, size', spans', hraster⟩ : ∃ st size' spans', gfxRasterFill (answers l.requests) m size
      l.edges clip rule (fun ss s => ss ++ [s]) [] = (st, size', spans') := ⟨_, _, _, rfl⟩
  rw [hraster] at hfill
  obtain rfl : st = .ok := by
    cases st <;> first | rfl | cases hfill
  obtain rfl : spans' = spans := by simpa using hfill
  have hspans := (gfxRasterFill_spec hraster).1 rfl
  rwa [foldl_append_eq_append, nil_append, ← flatMap_def, flatMap_singleton', hedges] at hspans

/-- A pixel is delivered at most once. -/
theorem fillSegments_rows : spans.Pairwise (·.y < ·.y) := by
  rw [fillSegments_spans hfill]
  unfold fillSpans
  split
  · exact .nil
  · dsimp only
    split_ifs with hnone
    · exact .nil
    · exact rasterSpans_rows (by omega)

/-- The coverage of a pixel of the clip is that of all segments. -/
theorem delivered_fillSegments (hlevel : Level ss) : delivered spans (X, Y) =
      if clip.Mem (X, Y) then coverage rule (totalWeight (ss.filterMap sideEdge) Y X) else 0 := by
  -- An edge that the clip drops has no height and no weight in the rows of the clip.
  have hdropped : clip.Mem (X, Y) → ∀ e : GfxEdge, (decide (¬ e.Outside clip)) = false →
      (e.y1 : ℤ) ≤ Y * 256 ∨ Y * 256 + 256 ≤ (e.y0 : ℤ) := fun hclip e he => by
    have hout : e.Outside clip := by simpa using he
    unfold GfxEdge.Outside at hout
    unfold GfxRect.Mem at hclip
    omega
  have hclosed : clip.Mem (X, Y) → ((clippedEdges clip ss).map (rise · Y)).sum = 0 :=
    fun hclip => by
    rw [clippedEdges, sum_map_filter fun e _ he => rise_eq_zero (hdropped hclip e he), hlevel Y]
  rw [fillSegments_spans hfill, delivered_fillSpans hclosed]
  split_ifs with hclip
  · rw [totalWeight, clippedEdges, sum_map_filter fun e _ he =>
      weight_eq_zero (hdropped hclip e he), totalWeight]
  · rfl

end

/-- The coverage of a pixel of the clip is that of all sides of the polygons. -/
theorem delivered_fillPolygons
    {spans : List Span} (hfill : fillPolygons answers m size clip rule polygons = .ok spans)
    (hclip : clip.Mem (X, Y)) : delivered spans (X, Y) =
      coverage rule (totalWeight ((polygons.flatMap sides).filterMap sideEdge) Y X) := by
  rw [delivered_fillSegments hfill fun _ => sum_rise_sides, if_pos hclip]

/-- Fills of the same polygons under a clip and under a larger one give the pixels of the first the
same coverage. -/
theorem fillPolygons_clip (polygons : List (List Vertex)) (rule : GfxFillRule) (A B : GfxRect)
    (hAB : ∀ p, A.Mem p → B.Mem p) {answersA answersB : ℕ → Bool} {mA mB : Cells} {sizeA sizeB : ℕ}
    {spansA spansB : List Span}
    (hA : fillPolygons answersA mA sizeA A rule polygons = .ok spansA)
    (hB : fillPolygons answersB mB sizeB B rule polygons = .ok spansB) (p : ℤ × ℤ) (hp : A.Mem p) :
    delivered spansA p = delivered spansB p := by
  rw [delivered_fillPolygons hA hp, delivered_fillPolygons hB (hAB p hp)]

/-- A triangle of which the clip `{0, 0, 2, 2}` cuts off a corner. -/
def triangle : List Vertex :=
  [(⟨128, by decide⟩, ⟨0, zero_fixed⟩), (⟨700, by decide⟩, ⟨256, by decide⟩),
    (⟨0, zero_fixed⟩, ⟨700, by decide⟩)]

/-- The square with a corner at the origin. -/
def square (n : I32) : GfxRect := ⟨⟨0, zero_i32⟩, ⟨0, zero_i32⟩, n, n⟩

theorem fillPolygons_clip_triangle : ∃ spansA spansB,
    fillPolygons (fun _ => true) (fun _ => (1, 1)) 0 (square ⟨2, by decide⟩) .nonzero [triangle] =
      .ok spansA ∧
    fillPolygons (fun _ => true) (fun _ => (0, 0)) 0 (square ⟨4, by decide⟩) .nonzero [triangle] =
      .ok spansB ∧
    delivered spansA (1, 1) = delivered spansB (1, 1) := by
  obtain ⟨spansA, hA⟩ := FallibleLoop.exists_ok_of_isOk
    (x := fillPolygons (fun _ => true) (fun _ => (1, 1)) 0 (square ⟨2, by decide⟩) .nonzero
      [triangle]) (by decide +kernel)
  obtain ⟨spansB, hB⟩ := FallibleLoop.exists_ok_of_isOk
    (x := fillPolygons (fun _ => true) (fun _ => (0, 0)) 0 (square ⟨4, by decide⟩) .nonzero
      [triangle]) (by decide +kernel)
  refine ⟨spansA, spansB, hA, hB, fillPolygons_clip _ _ _ _ (fun p hp => ?_) hA hB (1, 1) ?_⟩
  · unfold GfxRect.Mem square at *
    dsimp only at *
    omega
  · decide

end Bongos.Gfx
