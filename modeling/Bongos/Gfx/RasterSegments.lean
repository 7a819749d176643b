import Bongos.Gfx.RasterClip

/-!
# Fills depend on the net segments

What segments add to a pixel is a sum over the segments, and the term of a segment changes its sign
with the direction (`sum_map_swap`): every crossing of a sloped edge is computed from the edge that
goes down. So the order of the segments does not matter, a segment and its reverse cancel, and two
polygons that share a side are filled like their merged outline (`fills_net`), although the box and
the bands of the two fills differ.
-/

namespace Bongos.Gfx

open List

/-- A segment, from its first end to its second. -/
abbrev Segment := Vertex × Vertex

variable {clip : GfxRect} {rule : GfxFillRule} {ss ss' : List Segment} {answers : ℕ → Bool}

/-- The segments together are the sides of closed polygons. -/
def FormPolygons (ss : List Segment) : Prop :=
  ∃ polygons : List (List Vertex), ss ~ polygons.flatMap sides

/-- The edge list has room for the segments. -/
def WithinLimit (clip : GfxRect) (ss : List Segment) : Prop :=
  (clippedEdges clip ss).length ≤ GFX_RASTER_MAX_EDGES

/-- Filling the segments gives every pixel the coverage `cov`, once, whatever the scratch memory
holds, and does not fail if no allocation fails. -/
def Fills (clip : GfxRect) (rule : GfxFillRule) (ss : List Segment) (cov : ℤ × ℤ → ℤ) : Prop :=
  ∀ (answers : ℕ → Bool) (m : Cells) (size : ℕ),
    ((∀ k, answers k = true) → ∃ spans, fillSegments answers m size clip rule ss = .ok spans) ∧
    ∀ spans, fillSegments answers m size clip rule ss = .ok spans →
      spans.Pairwise (·.y < ·.y) ∧ ∀ p, ((delivered spans p).toNat : ℤ) = cov p

/-! ## Fills that succeed -/

/-- An edge for which there is room is added. -/
theorem gfxEdgeListAdd_ok {l : GfxEdgeList} {s : Segment} (hl : l.error = .ok)
    (hanswers : ∀ k, answers k = true)
    (hroom : (l.edges ++ (sideEdge s).toList.filter fun e => ¬ e.Outside l.clip).length ≤
      GFX_RASTER_MAX_EDGES) : (gfxEdgeListAdd answers l s.1.1 s.1.2 s.2.1 s.2.2).error = .ok := by
  unfold sideEdge at hroom
  unfold gfxEdgeListAdd
  rw [if_neg (not_not.2 hl)]
  cases hedge : edgeBetween s.1.1 s.1.2 s.2.1 s.2.2 with
  | none => exact hl
  | some e =>
    dsimp only
    rw [hanswers, if_pos rfl]
    split_ifs with hout hfull hcap
    · exact hl
    · simp [hedge, hout] at hroom
      omega
    all_goals exact hl

/-- The edge list has no error if it has room and no allocation fails. -/
theorem segmentEdges_ok (hanswers : ∀ k, answers k = true) (h : WithinLimit clip ss) :
    (segmentEdges answers clip ss).error = .ok := by
  have hfold : ∀ (ss : List Segment) (l : GfxEdgeList), l.error = .ok →
      (l.edges ++ clippedEdges l.clip ss).length ≤ GFX_RASTER_MAX_EDGES →
      (ss.foldl (fun l s => gfxEdgeListAdd answers l s.1.1 s.1.2 s.2.1 s.2.2) l).error = .ok := by
    intro ss
    induction ss with
    | nil => exact fun l hl _ => hl
    | cons s ss ih =>
      intro l hl hroom
      rw [clippedEdges_cons, ← append_assoc] at hroom
      have hadd := gfxEdgeListAdd_ok hl hanswers (s := s)
        (by rw [length_append] at hroom; omega)
      obtain ⟨-, hclip, hedges⟩ := gfxEdgeListAdd_edges hadd
      exact ih _ hadd (by rwa [hedges, hclip])
  exact hfold ss _ rfl h

/-- Filling does not fail if the scratch memory could be allocated. -/
theorem gfxRasterFill_ok {σ : Type*} {m : Cells} {size : ℕ} {edges : List GfxEdge}
    {fn : σ → Span → σ} {ctx : σ} (h : edges.length ≤ GFX_RASTER_MAX_EDGES) :
    (gfxRasterFill true m size edges clip rule fn ctx).1 = .ok := by
  unfold gfxRasterFill
  cases edges with
  | nil => rfl
  | cons first rest =>
    dsimp only
    rw [if_neg (not_lt.2 h)]
    split_ifs with hempty hbox halloc
    · rfl
    · rfl
    · exact halloc.2.elim
    all_goals rfl

/-- Segments within the limit are filled. -/
theorem exists_fillSegments (hanswers : ∀ k, answers k = true) (h : WithinLimit clip ss) (m : Cells)
    (size : ℕ) : ∃ spans, fillSegments answers m size clip rule ss = .ok spans := by
  have hok := segmentEdges_ok hanswers h
  have hedges := segmentEdges_eq hok
  unfold fillSegments
  rw [if_neg (not_not.2 hok), hedges, hanswers]
  have hfill : (gfxRasterFill true m size (clippedEdges clip ss) clip rule
    (fun ss (s : Span) => ss ++ [s]) []).1 = .ok := gfxRasterFill_ok h
  revert hfill
  rcases gfxRasterFill true m size _ clip rule _ _ with ⟨st, size', spans⟩
  rintro rfl
  exact ⟨spans, rfl⟩

/-- The coverage of the pixels that the weights of the segments give. -/
def segmentCoverage (clip : GfxRect) (rule : GfxFillRule) (ss : List Segment) (p : ℤ × ℤ) : ℤ :=
  if clip.Mem p then (coverage rule (totalWeight (ss.filterMap sideEdge) p.2 p.1)).toNat else 0

/-- Level segments are filled with the coverage that their weights give. -/
theorem fills_of_level (hlevel : Level ss) (hlimit : WithinLimit clip ss) :
    Fills clip rule ss (segmentCoverage clip rule ss) := by
  refine fun answers m size =>
    ⟨fun h => exists_fillSegments h hlimit m size, fun spans hfill =>
      ⟨fillSegments_rows hfill, fun p => ?_⟩⟩
  rw [delivered_fillSegments hfill hlevel, segmentCoverage]
  split_ifs <;> rfl

/-! ## Sums over segments -/

/-- The edge of the reverse. -/
def GfxEdge.flip (e : GfxEdge) : GfxEdge :=
  { e with dir := -e.dir, dir_eq := by have h := e.dir_eq; omega }

/-- A reversed segment has the reverse edge. -/
theorem sideEdge_swap (s : Segment) : sideEdge s.swap = (sideEdge s).map GfxEdge.flip := by
  unfold sideEdge edgeBetween GfxEdge.flip
  dsimp only [Prod.swap]
  split_ifs <;> first | rfl | omega

/-- So have all of them. -/
theorem filterMap_swap :
    (ss.map Prod.swap).filterMap sideEdge = (ss.filterMap sideEdge).map GfxEdge.flip := by
  rw [filterMap_map, map_filterMap]
  exact filterMap_congr fun s _ => sideEdge_swap s

section Sums

variable {g : GfxEdge → ℤ} (hflip : ∀ e, g e.flip = -g e)

include hflip

/-- A sum over the edges changes its sign if all segments are reversed. -/
theorem sum_map_swap :
    (((ss.map Prod.swap).filterMap sideEdge).map g).sum = -((ss.filterMap sideEdge).map g).sum := by
  rw [filterMap_swap, map_map]
  induction ss.filterMap sideEdge with
  | nil => rfl
  | cons e es ih => rw [map_cons, map_cons, sum_cons, sum_cons, ih, Function.comp, hflip, neg_add]

/-- A segment and its reverse cancel. -/
theorem sum_map_cancel (s : Segment) :
    (((s :: s.swap :: ss).filterMap sideEdge).map g).sum = ((ss.filterMap sideEdge).map g).sum := by
  have hsplit : s :: s.swap :: ss = [s] ++ ([s].map Prod.swap ++ ss) := rfl
  rw [hsplit, filterMap_append, filterMap_append, map_append, map_append, sum_append, sum_append,
    sum_map_swap hflip]
  ring

end Sums

/-- The weight of the reverse edge. -/
theorem weight_flip {Y X : ℤ} (e : GfxEdge) : weight e.flip Y X = -weight e Y X := by
  unfold weight
  by_cases h : max (e.y0 : ℤ) (Y * 256) < min (e.y1 : ℤ) (Y * 256 + 256)
  · rw [if_pos h]
    exact (if_pos h).trans (neg_mul ..)
  · rw [if_neg h]
    exact if_neg h

/-- Its rise. -/
theorem rise_flip {Y : ℤ} (e : GfxEdge) : rise e.flip Y = -rise e Y := neg_mul ..

/-- Neither rule looks at the sign. -/
theorem coverage_neg (v : ℤ) : coverage rule (-v) = coverage rule v := by
  have habs : (if -v < 0 then - -v else -v) = if v < 0 then -v else v := by split_ifs <;> omega
  unfold coverage
  rw [habs]

/-! ## The net segments -/

/-- Closed polygons rise as much as they fall in every row. -/
theorem FormPolygons.level (h : FormPolygons ss) : Level ss := by
  obtain ⟨polygons, hperm⟩ := h
  intro Y
  rw [((hperm.filterMap sideEdge).map (rise · Y)).sum_eq, sum_rise_sides]

/-- The limit does not depend on the order. -/
theorem withinLimit_perm (h : ss' ~ ss) (hlimit : WithinLimit clip ss) : WithinLimit clip ss' :=
  ((h.filterMap sideEdge).filter _).length_eq.trans_le hlimit

/-- Nor on the direction. -/
theorem withinLimit_swap (h : WithinLimit clip ss) : WithinLimit clip (ss.map Prod.swap) := by
  unfold WithinLimit clippedEdges at *
  rwa [filterMap_swap, filter_map, length_map]

/-- Segments in another order are filled alike. -/
theorem fills_perm (h : ss' ~ ss) (hlevel : Level ss) (hlimit : WithinLimit clip ss) :
    Fills clip rule ss' (segmentCoverage clip rule ss) := by
  have hsum : ∀ g : GfxEdge → ℤ, ((ss'.filterMap sideEdge).map g).sum =
      ((ss.filterMap sideEdge).map g).sum := fun g => ((h.filterMap sideEdge).map g).sum_eq
  have hcov : segmentCoverage clip rule ss' = segmentCoverage clip rule ss := by
    funext p
    unfold segmentCoverage totalWeight
    rw [hsum]
  rw [← hcov]
  exact fills_of_level (fun Y => (hsum _).trans (hlevel Y)) (withinLimit_perm h hlimit)

/-- Segments that are all reversed are filled alike. -/
theorem fills_swap (hlevel : Level ss) (hlimit : WithinLimit clip ss) :
    Fills clip rule (ss.map Prod.swap) (segmentCoverage clip rule ss) := by
  have hcov : segmentCoverage clip rule (ss.map Prod.swap) = segmentCoverage clip rule ss := by
    funext p
    unfold segmentCoverage totalWeight
    rw [sum_map_swap weight_flip, coverage_neg]
  rw [← hcov]
  exact fills_of_level (fun Y => by rw [sum_map_swap rise_flip, hlevel, neg_zero])
    (withinLimit_swap hlimit)

/-- A segment and its reverse change nothing. -/
theorem fills_cancel {s : Segment} (h : ss' ~ s :: s.swap :: ss) (hlevel : Level ss)
    (hlimit : WithinLimit clip ss') : Fills clip rule ss' (segmentCoverage clip rule ss) := by
  have hcov : segmentCoverage clip rule (s :: s.swap :: ss) = segmentCoverage clip rule ss := by
    funext p
    unfold segmentCoverage totalWeight
    rw [sum_map_cancel weight_flip]
  rw [← hcov]
  exact fills_perm h (fun Y => by rw [sum_map_cancel rise_flip, hlevel])
    (withinLimit_perm h.symm hlimit)

/-- The sides of a polygon join each vertex to the next one. -/
theorem sides_cons (v : Vertex) (vs : List Vertex) :
    sides (v :: vs) = (v :: vs).zip (vs ++ [v]) := by
  rw [sides, rotate_cons_succ, rotate_zero]

/-- The sides of two polygons that share a side are that side, its reverse and the merged
outline. -/
theorem sides_merge (a b : Vertex) (ps qs : List Vertex) :
    sides (a :: b :: ps) ++ sides (b :: a :: qs) ~
      (a, b) :: (b, a) :: sides (b :: ps ++ a :: qs) := by
  have hmerged : sides (b :: ps ++ a :: qs) =
      (b :: ps).zip (ps ++ [a]) ++ (a :: qs).zip (qs ++ [b]) := by
    rw [← zip_append (by simp), cons_append, sides_cons]
    simp
  rw [hmerged, sides_cons, sides_cons]
  exact perm_middle.cons (a, b)

/-- The coverage of closed polygons depends only on their net segments: not on the order, on the
direction of all of them, or on a segment together with its reverse. So two polygons that share a
side are filled like their merged outline. -/
theorem fills_net (clip : GfxRect) (rule : GfxFillRule) :
    (∀ ss, FormPolygons ss → WithinLimit clip ss → ∃ cov, Fills clip rule ss cov ∧
      (∀ ss', ss' ~ ss → Fills clip rule ss' cov) ∧ Fills clip rule (ss.map Prod.swap) cov ∧
      ∀ s ss', ss' ~ s :: s.swap :: ss → WithinLimit clip ss' → Fills clip rule ss' cov) ∧
    ∀ a b ps qs, WithinLimit clip (sides (a :: b :: ps) ++ sides (b :: a :: qs)) →
      ∃ cov, Fills clip rule (sides (a :: b :: ps) ++ sides (b :: a :: qs)) cov ∧
        Fills clip rule (sides (b :: ps ++ a :: qs)) cov := by
  constructor
  · intro ss hform hlimit
    have hlevel := hform.level
    exact ⟨_, fills_of_level hlevel hlimit, fun ss' h => fills_perm h hlevel hlimit,
      fills_swap hlevel hlimit, fun s ss' h => fills_cancel h hlevel⟩
  · intro a b ps qs hlimit
    have hperm := sides_merge a b ps qs
    have hmerged : FormPolygons (sides (b :: ps ++ a :: qs)) :=
      ⟨[b :: ps ++ a :: qs], by rw [flatMap_singleton]⟩
    refine ⟨_, fills_cancel hperm hmerged.level hlimit, fills_of_level hmerged.level ?_⟩
    have hmore := withinLimit_perm hperm.symm hlimit
    unfold WithinLimit at hmore ⊢
    rw [clippedEdges_cons, clippedEdges_cons, length_append, length_append] at hmore
    omega

/-- A triangle, and one more on its first side. -/
theorem fills_net_triangle : ∃ cov,
    Fills (square ⟨2, by decide⟩) .nonzero (sides triangle ++
      sides [triangle[1], triangle[0], (⟨700, by decide⟩, ⟨0, zero_fixed⟩)]) cov ∧
    Fills (square ⟨2, by decide⟩) .nonzero
      (sides [triangle[1], triangle[2], triangle[0], (⟨700, by decide⟩, ⟨0, zero_fixed⟩)]) cov :=
  (fills_net _ _).2 triangle[0] triangle[1] [triangle[2]] [_]
    (by unfold WithinLimit; decide +kernel)

end Bongos.Gfx
