import Bongos.Gfx.Region

/-!
# Damage regions cover what was added

A merge replaces two rectangles by one around both (`mergeAt_perm`), so the list gets coarser: it
covers what it covered, stays inside the limit and keeps its bounding box (`Coarser`). The loops
that merge end because every merge makes the list shorter, and they end only when no two rectangles
overlap.
-/

namespace Bongos.Gfx

open List

variable {rs rs' rs₀ rest : List GfxRect} {a b r u L : GfxRect} {p : ℤ × ℤ} {i j n : ℕ}

/-! ## Lists of rectangles -/

/-- The pixel is in one of the rectangles. -/
def Covers (rs : List GfxRect) (p : ℤ × ℤ) : Prop := ∃ r ∈ rs, r.Mem p

/-- The rectangles are not empty and inside the limit. -/
def Inside (L : GfxRect) (rs : List GfxRect) : Prop := ∀ r ∈ rs, ¬ gfxRectIsEmpty r ∧ r ≤ L

/-- No two of the rectangles overlap. -/
def Apart (rs : List GfxRect) : Prop := rs.Pairwise fun a b => ¬ overlaps a b

/-- The rectangles that are around all of the list. -/
def boxes (rs : List GfxRect) : Set GfxRect := upperBounds {r | r ∈ rs}

theorem mem_boxes : u ∈ boxes rs ↔ ∀ r ∈ rs, r ≤ u := Iff.rfl

theorem overlaps_comm : overlaps a b ↔ overlaps b a := by
  unfold overlaps
  omega

theorem overlaps_of_mem (ha : a.Mem p) (hb : b.Mem p) : overlaps a b := by
  unfold overlaps
  unfold GfxRect.Mem at ha hb
  omega

/-- Two rectangles that overlap and are not empty have a pixel in common. -/
theorem exists_mem_of_overlaps (ha : ¬ gfxRectIsEmpty a) (hb : ¬ gfxRectIsEmpty b)
    (h : overlaps a b) : ∃ p, a.Mem p ∧ b.Mem p := by
  refine ⟨(max (a.x0 : ℤ) b.x0, max (a.y0 : ℤ) b.y0), ?_⟩
  unfold overlaps at h
  unfold gfxRectIsEmpty at ha hb
  unfold GfxRect.Mem
  omega

theorem covers_perm (h : rs.Perm rs') : Covers rs p ↔ Covers rs' p := by
  simp only [Covers, h.mem_iff]

theorem covers_cons : Covers (r :: rs) p ↔ r.Mem p ∨ Covers rs p := by
  simp only [Covers, exists_mem_cons_iff]

theorem Inside.perm (h : Inside L rs) (hp : rs.Perm rs') : Inside L rs' :=
  fun r hr => h r (hp.mem_iff.2 hr)

theorem Apart.perm (h : Apart rs) (hp : rs.Perm rs') : Apart rs' :=
  (hp.pairwise_iff fun hab hba => hab (overlaps_comm.1 hba)).1 h

theorem boxes_perm (h : rs.Perm rs') : boxes rs = boxes rs' := by
  ext u
  simp only [mem_boxes, h.mem_iff]

/-- `rs'` covers what `rs` does, with at most as many rectangles, inside the limit, and with the
same bounding box. -/
structure Coarser (L : GfxRect) (rs rs' : List GfxRect) : Prop where
  inside : Inside L rs'
  covers : ∀ p, Covers rs p → Covers rs' p
  boxes_eq : boxes rs' = boxes rs
  length_le : rs'.length ≤ rs.length

theorem Coarser.refl (h : Inside L rs) : Coarser L rs rs := ⟨h, fun _ => id, rfl, le_rfl⟩

theorem Coarser.trans (h : Coarser L rs₀ rs) (h' : Coarser L rs rs') : Coarser L rs₀ rs' :=
  ⟨h'.inside, fun p hp => h'.covers p (h.covers p hp), h'.boxes_eq.trans h.boxes_eq,
    h'.length_le.trans h.length_le⟩

/-- Two rectangles replaced by the least one around both. -/
theorem Coarser.replace (h : Inside L rs) (hu : ∀ v, u ≤ v ↔ a ≤ v ∧ b ≤ v)
    (hrs : rs.Perm (a :: b :: rest)) (hrs' : rs'.Perm (u :: rest)) : Coarser L rs rs' := by
  have hin := h.perm hrs
  obtain ⟨ha, haL⟩ := hin a (by simp)
  obtain ⟨hau, hbu⟩ := (hu u).1 le_rfl
  refine ⟨?_, fun p hp => ?_, ?_, ?_⟩
  · have hnew : Inside L (u :: rest) := by
      refine forall_mem_cons.2 ⟨⟨not_isEmpty_of_le ha hau, ?_⟩, fun r hr => hin r (by simp [hr])⟩
      exact (hu L).2 ⟨haL, (hin b (by simp)).2⟩
    exact hnew.perm hrs'.symm
  · rw [covers_perm hrs, covers_cons, covers_cons] at hp
    rw [covers_perm hrs', covers_cons]
    rcases hp with hp | hp | hp
    · exact .inl (hp.mono hau)
    · exact .inl (hp.mono hbu)
    · exact .inr hp
  · rw [boxes_perm hrs', boxes_perm hrs]
    ext v
    simp only [mem_boxes, forall_mem_cons, hu, and_assoc]
  · rw [hrs'.length_eq, hrs.length_eq]
    simp

theorem Coarser.merge (h : Inside L rs) (hrs : rs.Perm (a :: b :: rest))
    (hrs' : rs'.Perm (gfxRectUnion a b :: rest)) : Coarser L rs rs' := by
  have hin := h.perm hrs
  exact .replace h (fun v => union_le_iff (hin a (by simp)).1 (hin b (by simp)).1) hrs hrs'

/-- A rectangle inside another one is dropped. -/
theorem Coarser.drop (h : Inside L rs) (hba : b ≤ a) (hrs : rs.Perm (a :: b :: rest))
    (hrs' : rs'.Perm (a :: rest)) : Coarser L rs rs' :=
  .replace h (fun _ => ⟨fun ha => ⟨ha, hba.trans ha⟩, And.left⟩) hrs hrs'

/-! ## Removing and merging -/

theorem rectAt_eq (hi : i < rs.length) : rectAt rs i = rs[i] := by
  simp [rectAt, hi]

/-- The swap of `removeAt` only changes the order. -/
theorem removeAt_perm (hi : i < rs.length) : (removeAt rs i).Perm (rs.eraseIdx i) := by
  obtain rfl | ⟨init, last, rfl⟩ := rs.eq_nil_or_concat'
  · exact absurd hi (by simp)
  have hlast : rectAt (init ++ [last]) ((init ++ [last]).length - 1) = last := by
    simp [rectAt]
  unfold removeAt
  rw [hlast]
  rcases Nat.lt_or_ge i init.length with hlt | hge
  · rw [set_append_left _ _ hlt, dropLast_concat, eraseIdx_append_of_lt_length hlt]
    exact (set_perm_cons_eraseIdx hlt last).trans (perm_append_singleton _ _).symm
  · have hi : i = init.length := by
      rw [length_append, length_singleton] at hi
      omega
    subst hi
    rw [eraseIdx_append_of_length_le le_rfl, Nat.sub_self]
    simp

/-- The rectangles before and after a removal. -/
theorem perm_removeAt (hi : i < rs.length) : rs.Perm (rectAt rs i :: removeAt rs i) := by
  rw [rectAt_eq hi]
  exact (getElem_cons_eraseIdx_perm hi).symm.trans ((removeAt_perm hi).symm.cons _)

/-- The rectangles before and after a merge. -/
theorem mergeAt_perm (hij : i < j) (hj : j < rs.length) : ∃ rest,
    rs.Perm (rectAt rs i :: rectAt rs j :: rest) ∧
      (mergeAt rs i j).Perm (gfxRectUnion (rectAt rs i) (rectAt rs j) :: rest) := by
  have hi : i < (rs.eraseIdx j).length := by
    rw [length_eraseIdx_of_lt hj]
    omega
  have hget : (rs.eraseIdx j)[i] = rs[i] := by
    rw [getElem_eraseIdx_of_lt hi hij]
  refine ⟨(rs.eraseIdx j).eraseIdx i, ?_, ?_⟩
  · rw [rectAt_eq (hij.trans hj), rectAt_eq hj, ← hget]
    exact ((getElem_cons_eraseIdx_perm hj).symm.trans
      ((getElem_cons_eraseIdx_perm hi).symm.cons _)).trans (.swap ..)
  · unfold mergeAt
    generalize gfxRectUnion (rectAt rs i) (rectAt rs j) = u
    refine (removeAt_perm (by simpa using hj)).trans ?_
    rw [eraseIdx_set_gt hij]
    exact set_perm_cons_eraseIdx hi u

/-! ## The loops -/

theorem mem_indexPairs : (i, j) ∈ indexPairs n ↔ i < j ∧ j < n := by
  simp only [indexPairs, mem_flatMap, mem_range, mem_map, mem_range'_1, Prod.mk.injEq]
  constructor
  · rintro ⟨k, hk, l, hl, rfl, rfl⟩
    omega
  · rintro ⟨hij, hj⟩
    exact ⟨i, by omega, j, by omega, rfl, rfl⟩

/-- A round of `resolveOverlaps` merges two rectangles. -/
theorem resolveStep_coarser (h : Inside L rs) (hstep : resolveStep rs = some rs') :
    Coarser L rs rs' ∧ rs'.length < rs.length := by
  obtain ⟨⟨i, j⟩, hfind, rfl⟩ := Option.map_eq_some_iff.1 hstep
  obtain ⟨hij, hj⟩ := mem_indexPairs.1 (mem_of_find?_eq_some hfind)
  obtain ⟨rest, hrs, hrs'⟩ := mergeAt_perm hij hj
  refine ⟨.merge h hrs hrs', ?_⟩
  rw [hrs'.length_eq, hrs.length_eq]
  simp

/-- `resolveOverlaps` stops only when no two rectangles overlap. -/
theorem apart_of_resolveStep (h : resolveStep rs = none) : Apart rs := by
  rw [resolveStep, Option.map_eq_none_iff, find?_eq_none] at h
  refine pairwise_iff_getElem.2 fun i j hi hj hij => ?_
  have hno := h (i, j) (mem_indexPairs.2 ⟨hij, hj⟩)
  rw [rectAt_eq hi, rectAt_eq hj] at hno
  exact of_decide_eq_false (Bool.not_eq_true _ ▸ hno)

/-- `resolveOverlaps` ends, and leaves no two rectangles that overlap. -/
theorem exists_resolveOverlaps (h : Inside L rs) :
    ∃ rs', resolveOverlaps rs = some rs' ∧ Coarser L rs rs' ∧ Apart rs' := by
  obtain ⟨rs', hrun, hstop, hcoarser⟩ : ∃ rs', resolveOverlaps rs = some rs' ∧
      resolveStep rs' = none ∧ Coarser L rs rs' := by
    refine exists_runLoop (μ := List.length) (fun hc hstep => ?_)
      (Coarser.refl h) (Nat.lt_succ_self rs.length)
    obtain ⟨hc', hlt⟩ := resolveStep_coarser hc.inside hstep
    exact ⟨hc.trans hc', hlt⟩
  exact ⟨rs', hrun, hcoarser, apart_of_resolveStep hstop⟩

/-- What the first loop of `gfxRegionAdd` keeps of the new rectangle and the region. -/
structure Absorbing (L : GfxRect) (s₀ s : GfxRect × List GfxRect) : Prop where
  coarser : Coarser L (s₀.1 :: s₀.2) (s.1 :: s.2)
  apart : Apart s.2

theorem Absorbing.step {s0 s s' : GfxRect × List GfxRect} (h : Absorbing L s0 s)
    (hstep : absorbStep s = some s') : Absorbing L s0 s' ∧ s'.2.length < s.2.length := by
  obtain ⟨i, hfind, rfl⟩ := Option.map_eq_some_iff.1 hstep
  have hi : i < s.2.length := mem_range.1 (mem_of_find?_eq_some hfind)
  have hperm := perm_removeAt hi
  have hlen := hperm.length_eq
  have hperm' : (s.1 :: s.2).Perm (s.1 :: rectAt s.2 i :: removeAt s.2 i) := hperm.cons _
  have hapart : Apart (removeAt s.2 i) := (pairwise_cons.1 (h.apart.perm hperm)).2
  rw [length_cons] at hlen
  split_ifs with hin
  · exact ⟨⟨h.coarser.trans (.drop h.coarser.inside hin hperm' (.refl _)), hapart⟩, by
      dsimp only
      omega⟩
  · exact ⟨⟨h.coarser.trans (.merge h.coarser.inside hperm' (.refl _)), hapart⟩, by
      dsimp only
      omega⟩

/-- The first loop stops only when the new rectangle overlaps none of the region. -/
theorem Absorbing.stop {s0 s : GfxRect × List GfxRect} (h : Absorbing L s0 s)
    (hstop : absorbStep s = none) : Apart (s.1 :: s.2) := by
  rw [absorbStep, Option.map_eq_none_iff, find?_eq_none] at hstop
  refine pairwise_cons.2 ⟨fun r hr hover => ?_, h.apart⟩
  obtain ⟨i, hi, rfl⟩ := mem_iff_getElem.1 hr
  have hno := hstop i (mem_range.2 hi)
  rw [rectAt_eq hi] at hno
  exact hno (decide_eq_true (.inr hover))

/-- The pair that the last loop merges is a pair of places. -/
theorem cheapestPair_lt (h : 1 < rs.length) :
    (cheapestPair rs).2.1 < (cheapestPair rs).2.2 ∧ (cheapestPair rs).2.2 < rs.length := by
  refine List.foldlRecOn (indexPairs rs.length) _ (motive := fun best : BitVec 64 × ℕ × ℕ =>
    best.2.1 < best.2.2 ∧ best.2.2 < rs.length) ⟨Nat.one_pos, h⟩ fun best hbest ij hij => ?_
  split_ifs
  · exact mem_indexPairs.1 hij
  · exact hbest

/-- The last loop of `gfxRegionAdd` ends, with few enough rectangles. -/
theorem exists_shrinkLoop (h : Inside L rs) (hapart : Apart rs) (hpos : 0 < n)
    (hn : rs.length ≤ n + 15) :
    ∃ rs', shrinkLoop n rs = some rs' ∧ Coarser L rs rs' ∧ Apart rs' ∧
      rs'.length ≤ GFX_REGION_MAX_RECTS := by
  induction n generalizing rs with
  | zero => exact absurd hpos (Nat.lt_irrefl 0)
  | succ n ih =>
    rw [shrinkLoop]
    split_ifs with hmany
    · have hmany : 16 < rs.length := hmany
      have hmany' : 1 < rs.length := by omega
      obtain ⟨hij, hj⟩ := cheapestPair_lt hmany'
      obtain ⟨rest, hrs, hrs'⟩ := mergeAt_perm hij hj
      have hmerge := Coarser.merge h hrs hrs'
      obtain ⟨rs1, hresolve, hcoarser, hapart1⟩ := exists_resolveOverlaps hmerge.inside
      have hlen : rs1.length < rs.length := by
        have hle := hcoarser.length_le
        rw [hrs'.length_eq] at hle
        rw [hrs.length_eq]
        simp only [length_cons] at hle ⊢
        omega
      obtain ⟨rs', hloop, hcoarser', hrest⟩ := ih hcoarser.inside hapart1 (by omega) (by omega)
      exact ⟨rs', by rw [hresolve]; exact hloop, (hmerge.trans hcoarser).trans hcoarser', hrest⟩
    · exact ⟨rs, rfl, .refl h, hapart, Nat.not_lt.1 hmany⟩

/-! ## The operations -/

/-- The invariant of a region. -/
structure RegionOk (g : GfxRegion) : Prop where
  count_le : g.rects.length ≤ GFX_REGION_MAX_RECTS
  inside : Inside g.limit g.rects
  apart : Apart g.rects

/-- The rectangle as it is added: clipped, and only if something is left of it. -/
def clipped (L r : GfxRect) : List GfxRect :=
  if gfxRectIsEmpty (gfxRectIntersect r L) then [] else [gfxRectIntersect r L]

theorem covers_clipped : Covers (clipped L r) p ↔ r.Mem p ∧ L.Mem p := by
  rw [← mem_intersect]
  unfold clipped Covers
  split_ifs with hempty
  · refine ⟨fun ⟨x, hx, _⟩ => absurd hx not_mem_nil, fun hp => ?_⟩
    exact absurd hempty (not_isEmpty_iff.2 ⟨p, hp⟩)
  · simp

variable {g g' : GfxRegion}

/-- An addition covers the region and the clipped rectangle, with the bounding box of both. -/
theorem exists_gfxRegionAdd (h : RegionOk g) (r : GfxRect) :
    ∃ g', gfxRegionAdd g r = some g' ∧ RegionOk g' ∧ g'.limit = g.limit ∧
      (∀ p, Covers (clipped g.limit r ++ g.rects) p → Covers g'.rects p) ∧
      boxes g'.rects = boxes (clipped g.limit r ++ g.rects) := by
  unfold gfxRegionAdd clipped
  by_cases hempty : gfxRectIsEmpty (gfxRectIntersect r g.limit)
  · rw [if_pos hempty, if_pos hempty]
    exact ⟨g, rfl, h, rfl, fun _ => id, rfl⟩
  rw [if_neg hempty, if_neg hempty]
  have hin : Inside g.limit (gfxRectIntersect r g.limit :: g.rects) :=
    forall_mem_cons.2 ⟨⟨hempty, (intersect_le hempty).2⟩, h.inside⟩
  by_cases hcovered : ∃ x ∈ g.rects, contains x (gfxRectIntersect r g.limit)
  · rw [if_pos hcovered]
    obtain ⟨x, hx, hle⟩ := hcovered
    refine ⟨g, rfl, h, rfl, fun p hp => ?_, ?_⟩
    · rcases covers_cons.1 hp with hp | hp
      · exact ⟨x, hx, hp.mono hle⟩
      · exact hp
    · ext u
      simp only [mem_boxes, singleton_append, forall_mem_cons]
      exact ⟨fun hu => ⟨hle.trans (hu x hx), hu⟩, fun hu => hu.2⟩
  · rw [if_neg hcovered]
    generalize gfxRectIntersect r g.limit = c at hin
    obtain ⟨⟨c', rs⟩, hloop, hstop, habsorb⟩ : ∃ s', runLoop absorbStep (g.rects.length + 1)
        (c, g.rects) = some s' ∧ absorbStep s' = none ∧ Absorbing g.limit (c, g.rects) s' :=
      exists_runLoop (μ := fun s => s.2.length)
        (fun ha hstep => ha.step hstep) ⟨.refl hin, h.apart⟩ (Nat.lt_succ_self _)
    -- The new rectangle goes to the end of the list.
    have hperm : (c' :: rs).Perm (rs ++ [c']) := (perm_append_singleton _ _).symm
    obtain ⟨rs', hshrink, hcoarser, hapart, hcount⟩ := exists_shrinkLoop (n := rs.length + 2)
      (habsorb.coarser.inside.perm hperm) ((habsorb.stop hstop).perm hperm) (by omega)
      (by rw [length_append, length_singleton]; omega)
    refine ⟨{ g with rects := rs' }, ?_, ⟨hcount, hcoarser.inside, hapart⟩, rfl, fun p hp => ?_, ?_⟩
    · rw [hloop]
      show (shrinkLoop (rs.length + 2) (rs ++ [c']) >>= _) = _
      rw [hshrink]
      rfl
    · exact hcoarser.covers p ((covers_perm hperm).1 (habsorb.coarser.covers p hp))
    · rw [hcoarser.boxes_eq, ← boxes_perm hperm]
      exact habsorb.coarser.boxes_eq

theorem covers_append : Covers (rs ++ rs') p ↔ Covers rs p ∨ Covers rs' p := by
  simp only [Covers, mem_append, or_and_right, exists_or]

/-- A union adds the rectangles of the other region one by one. -/
theorem exists_foldlM_add (h : RegionOk g) (rs : List GfxRect) :
    ∃ g', rs.foldlM gfxRegionAdd g = some g' ∧ RegionOk g' ∧ g'.limit = g.limit ∧
      (∀ p, Covers g.rects p ∨ (Covers rs p ∧ g.limit.Mem p) → Covers g'.rects p) ∧
      boxes g'.rects = boxes (rs.flatMap (clipped g.limit) ++ g.rects) := by
  induction rs generalizing g with
  | nil => exact ⟨g, rfl, h, rfl, by simp [Covers], rfl⟩
  | cons r rs ih =>
    obtain ⟨g1, hadd, hok1, hlimit1, hcovers1, hboxes1⟩ := exists_gfxRegionAdd h r
    obtain ⟨g', hfold, hok', hlimit', hcovers', hboxes'⟩ := ih hok1
    rw [hlimit1] at hlimit' hcovers' hboxes'
    refine ⟨g', by rw [foldlM_cons, hadd]; exact hfold, hok', hlimit', fun p hp => ?_, ?_⟩
    · apply hcovers'
      rcases hp with hp | ⟨hp, hL⟩
      · exact .inl (hcovers1 p (covers_append.2 (.inr hp)))
      · rcases covers_cons.1 hp with hp | hp
        · exact .inl (hcovers1 p (covers_append.2 (.inl (covers_clipped.2 ⟨hp, hL⟩))))
        · exact .inr ⟨hp, hL⟩
    · rw [hboxes']
      have hrects : ∀ u, u ∈ boxes g1.rects ↔ u ∈ boxes (clipped g.limit r ++ g.rects) := by
        simp [hboxes1]
      ext u
      have hu := hrects u
      simp only [mem_boxes, flatMap_cons, forall_mem_append] at hu ⊢
      rw [hu]
      exact and_left_comm.trans and_assoc.symm

/-- An intersection covers what is in both, and keeps the limit. -/
theorem RegionOk.intersectRect (h : RegionOk g) (clip : GfxRect) :
    RegionOk (gfxRegionIntersectRect g clip) ∧
      ∀ p, Covers g.rects p → clip.Mem p → Covers (gfxRegionIntersectRect g clip).rects p := by
  have hmem : ∀ x ∈ (gfxRegionIntersectRect g clip).rects, ∃ r ∈ g.rects,
      gfxRectIntersect r clip = x ∧ ¬ gfxRectIsEmpty x := by
    intro x hx
    obtain ⟨hx, hne⟩ := mem_filter.1 hx
    obtain ⟨r, hr, rfl⟩ := mem_map.1 hx
    exact ⟨r, hr, rfl, by simpa using hne⟩
  refine ⟨⟨?_, fun x hx => ?_, ?_⟩, fun p ⟨r, hr, hp⟩ hclip => ?_⟩
  · exact ((length_filter_le _ _).trans (length_map _).le).trans h.count_le
  · obtain ⟨r, hr, rfl, hne⟩ := hmem x hx
    exact ⟨hne, (intersect_le hne).1.trans (h.inside r hr).2⟩
  · -- A pixel of two of the parts would be a pixel of two of the rectangles.
    refine pairwise_filter.2 (pairwise_map.2 (h.apart.imp fun {a b} hab ha hb hover => ?_))
    obtain ⟨p, hpa, hpb⟩ := exists_mem_of_overlaps (by simpa using ha) (by simpa using hb) hover
    exact hab (overlaps_of_mem (mem_intersect.1 hpa).1 (mem_intersect.1 hpb).1)
  · have hp' := mem_intersect.2 ⟨hp, hclip⟩
    refine ⟨_, mem_filter.2 ⟨mem_map_of_mem hr, ?_⟩, hp'⟩
    simpa using not_isEmpty_iff.2 ⟨p, hp'⟩

/-- A pixel that a half-open rectangle of `int32_t` sides can hold. -/
def InRange (p : ℤ × ℤ) : Prop :=
  (-2^31 ≤ p.1 ∧ p.1 < 2^31 - 1) ∧ (-2^31 ≤ p.2 ∧ p.2 < 2^31 - 1)

/-- The saturating shift moves the pixels of a rectangle and cuts off those that leave the range. -/
theorem mem_shifted {dx dy : I32} :
    (shifted r dx dy).Mem p ↔ r.Mem (p.1 - dx, p.2 - dy) ∧ InRange p := by
  unfold shifted GfxRect.Mem InRange
  simp only [coe_sat]
  omega

theorem shifted_mono {dx dy : I32} (h : a ≤ b) : shifted a dx dy ≤ shifted b dx dy := by
  rw [le_def] at h ⊢
  unfold shifted
  simp only [coe_sat]
  omega

/-- A translation moves what is covered. -/
theorem exists_gfxRegionTranslate (h : RegionOk g) (dx dy : I32) :
    ∃ g', gfxRegionTranslate g dx dy = some g' ∧ RegionOk g' ∧ g'.limit = shifted g.limit dx dy ∧
      ∀ p, Covers g.rects (p.1 - dx, p.2 - dy) → InRange p → Covers g'.rects p := by
  set moved := (g.rects.map (shifted · dx dy)).filter fun t => ¬ gfxRectIsEmpty t with hmoved
  have hin : Inside (shifted g.limit dx dy) moved := by
    intro t ht
    obtain ⟨ht, hne⟩ := mem_filter.1 ht
    obtain ⟨r, hr, rfl⟩ := mem_map.1 ht
    exact ⟨by simpa using hne, shifted_mono (h.inside r hr).2⟩
  obtain ⟨rs, hresolve, hcoarser, hapart⟩ := exists_resolveOverlaps hin
  have hlen : moved.length ≤ g.rects.length :=
    (length_filter_le _ _).trans (length_map _).le
  refine ⟨⟨rs, _⟩, ?_, ⟨?_, hcoarser.inside, hapart⟩, rfl, fun p hp hrange => ?_⟩
  · unfold gfxRegionTranslate
    rw [← hmoved, hresolve]
    rfl
  · exact (hcoarser.length_le.trans hlen).trans h.count_le
  · obtain ⟨r, hr, hp⟩ := hp
    have hp' := mem_shifted.2 ⟨hp, hrange⟩
    refine hcoarser.covers p ⟨_, mem_filter.2 ⟨mem_map_of_mem hr, ?_⟩, hp'⟩
    simpa using not_isEmpty_iff.2 ⟨p, hp'⟩

/-! ## The bounding box -/

/-- The rectangle is the bounding box of the list: its least upper bound, or `{0, 0, 0, 0}`. -/
def IsBoundingBox (rs : List GfxRect) (b : GfxRect) : Prop :=
  if rs = [] then b = emptyRect else IsLUB {r | r ∈ rs} b

theorem foldl_union_boxes (ha : ¬ gfxRectIsEmpty a) (h : ∀ r ∈ rs, ¬ gfxRectIsEmpty r) :
    ∀ u, rs.foldl gfxRectUnion a ≤ u ↔ u ∈ boxes (a :: rs) := by
  induction rs generalizing a with
  | nil => simp [mem_boxes]
  | cons r rs ih =>
    obtain ⟨hr, hrs⟩ := forall_mem_cons.1 h
    have hau : a ≤ gfxRectUnion a r := (isLUB_union ha hr).1 (.inl rfl)
    intro u
    rw [foldl_cons, ih (not_isEmpty_of_le ha hau) hrs]
    simp only [mem_boxes, forall_mem_cons, union_le_iff ha hr, and_assoc]

/-- Only a list without rectangles has `{0, 0, 0, 0}` around it. -/
theorem emptyRect_mem_boxes (h : ∀ r ∈ rs, ¬ gfxRectIsEmpty r) :
    emptyRect ∈ boxes rs ↔ rs = [] := by
  cases rs with
  | nil => simp [mem_boxes]
  | cons r rs =>
    refine ⟨fun hbox => ?_, fun hnil => absurd hnil (cons_ne_nil _ _)⟩
    exact absurd (by decide) (not_isEmpty_of_le (h r mem_cons_self) (hbox mem_cons_self))

/-- `gfxRegionBounds` is the bounding box of every list with the same boxes. -/
theorem isBoundingBox_bounds (h : RegionOk g) {adds : List GfxRect}
    (hboxes : boxes g.rects = boxes adds) (hadds : ∀ r ∈ adds, ¬ gfxRectIsEmpty r) :
    IsBoundingBox adds (gfxRegionBounds g) := by
  have hrects : ∀ r ∈ g.rects, ¬ gfxRectIsEmpty r := fun r hr => (h.inside r hr).1
  have hnil : g.rects = [] ↔ adds = [] := by
    rw [← emptyRect_mem_boxes hrects, ← emptyRect_mem_boxes hadds, hboxes]
  unfold IsBoundingBox gfxRegionBounds
  cases hg : g.rects with
  | nil =>
    rw [if_pos (hnil.1 hg)]
    rfl
  | cons r rs =>
    rw [if_neg fun hempty => cons_ne_nil r rs (hg ▸ hnil.2 hempty)]
    rw [hg] at hrects hboxes
    obtain ⟨hr, hrs⟩ := forall_mem_cons.1 hrects
    -- The first union drops the empty rectangle that the loop starts from.
    have hfirst : gfxRectUnion emptyRect r = r := by
      rw [gfxRectUnion, if_pos (by decide), if_neg hr]
    rw [foldl_cons, hfirst]
    refine isLUB_iff_le_iff.2 fun u => ?_
    rw [foldl_union_boxes hr hrs u, hboxes]
    rfl

/-! ## Runs of operations -/

/-- A call on a region. -/
inductive RegionOp where
  | add (r : GfxRect)
  | union (src : GfxRegion)
  | unionSelf
  | intersectRect (clip : GfxRect)
  | translate (dx dy : I32)
  | clear

/-- What a call does. There is no result if a loop does not end. -/
def RegionOp.apply (g : GfxRegion) : RegionOp → Option GfxRegion
  | .add r => gfxRegionAdd g r
  | .union src => gfxRegionUnion g src
  | .unionSelf => gfxRegionUnion g g
  | .intersectRect clip => some (gfxRegionIntersectRect g clip)
  | .translate dx dy => gfxRegionTranslate g dx dy
  | .clear => some (gfxRegionClear g)

/-- The pixels that the region has to cover after a call, if it had to cover `added` before. -/
def RegionOp.added (g : GfxRegion) (L : GfxRect) (added : Set (ℤ × ℤ)) : RegionOp → Set (ℤ × ℤ)
  | .add r => added ∪ {p | r.Mem p ∧ L.Mem p}
  | .union src => added ∪ {p | Covers src.rects p ∧ L.Mem p}
  | .unionSelf => added ∪ {p | Covers g.rects p ∧ L.Mem p}
  | .intersectRect clip => added ∩ {p | clip.Mem p}
  | .translate dx dy => {p | (p.1 - dx, p.2 - dy) ∈ added ∧ InRange p}
  | .clear => ∅

/-- The limit after a call. Only a translation moves it. -/
def RegionOp.limit (L : GfxRect) : RegionOp → GfxRect
  | .translate dx dy => shifted L dx dy
  | _ => L

/-- A region, the limit that it was given, and the pixels that it has to cover. -/
structure Damage where
  region : GfxRegion
  limit : GfxRect
  added : Set (ℤ × ℤ)

/-- A call, with what it adds to the pixels that are to be covered. -/
def Damage.step (w : Damage) (op : RegionOp) : Option Damage :=
  (op.apply w.region).map (⟨·, op.limit w.limit, op.added w.region w.limit w.added⟩)

/-- The invariant: the region is in order, has its limit and covers what was added. -/
structure Damage.Ok (w : Damage) : Prop where
  region : RegionOk w.region
  limit : w.region.limit = w.limit
  covers : ∀ p ∈ w.added, Covers w.region.rects p

theorem RegionOk.init (L : GfxRect) : RegionOk (gfxRegionInit L) :=
  ⟨Nat.zero_le _, by simp [Inside, gfxRegionInit], .nil⟩

/-- Every call ends and keeps the invariant. -/
theorem Damage.Ok.step {w : Damage} (h : w.Ok) (op : RegionOp) :
    ∃ w', w.step op = some w' ∧ w'.Ok := by
  have hadds : ∀ rs : List GfxRect, ∃ g', rs.foldlM gfxRegionAdd w.region = some g' ∧
      Damage.Ok ⟨g', w.limit, w.added ∪ {p | Covers rs p ∧ w.limit.Mem p}⟩ := fun rs => by
    obtain ⟨g', hrun, hok, hlimit, hcovers, _⟩ := exists_foldlM_add h.region rs
    rw [h.limit] at hlimit hcovers
    exact ⟨g', hrun, hok, hlimit, fun p hp => hcovers p (hp.imp_left (h.covers p))⟩
  unfold Damage.step
  cases op with
  | add r =>
    obtain ⟨g', hrun, hok, hlimit, hcovers⟩ := hadds [r]
    rw [show (RegionOp.add r).apply w.region = some g' by simpa [RegionOp.apply] using hrun]
    refine ⟨_, rfl, hok, hlimit, fun p hp => ?_⟩
    exact hcovers p (hp.imp_right fun hp => ⟨⟨r, mem_singleton_self r, hp.1⟩, hp.2⟩)
  | union src =>
    obtain ⟨g', hrun, hok⟩ := hadds src.rects
    rw [show (RegionOp.union src).apply w.region = some g' from hrun]
    exact ⟨_, rfl, hok⟩
  | unionSelf =>
    obtain ⟨g', hrun, hok⟩ := hadds w.region.rects
    rw [show RegionOp.unionSelf.apply w.region = some g' from hrun]
    exact ⟨_, rfl, hok⟩
  | intersectRect clip =>
    obtain ⟨hok, hcovers⟩ := h.region.intersectRect clip
    exact ⟨_, rfl, hok, h.limit, fun p hp => hcovers p (h.covers p hp.1) hp.2⟩
  | translate dx dy =>
    obtain ⟨g', hrun, hok, hlimit, hcovers⟩ := exists_gfxRegionTranslate h.region dx dy
    rw [h.limit] at hlimit
    rw [show (RegionOp.translate dx dy).apply w.region = some g' from hrun]
    exact ⟨_, rfl, hok, hlimit, fun p hp => hcovers p (h.covers _ hp.1) hp.2⟩
  | clear =>
    have hok : RegionOk (gfxRegionClear w.region) :=
      ⟨Nat.zero_le _, by simp [Inside, gfxRegionClear], .nil⟩
    exact ⟨_, rfl, hok, h.limit, fun p hp => hp.elim⟩

/-- A list of calls ends and keeps the invariant. -/
theorem Damage.Ok.run {w : Damage} (h : w.Ok) (ops : List RegionOp) :
    ∃ w', ops.foldlM Damage.step w = some w' ∧ w'.Ok := by
  induction ops generalizing w with
  | nil => exact ⟨w, rfl, h⟩
  | cons op ops ih =>
    obtain ⟨w1, hstep, hok⟩ := h.step op
    obtain ⟨w', hrun, hok'⟩ := ih hok
    exact ⟨w', by rw [foldlM_cons, hstep]; exact hrun, hok'⟩

theorem not_isEmpty_of_mem_clipped (h : r ∈ clipped L a) : ¬ gfxRectIsEmpty r := by
  unfold clipped at h
  split_ifs at h with hempty
  · exact absurd h not_mem_nil
  · rwa [mem_singleton.1 h]

/-- From an empty region on, every list of calls ends with at most 16 rectangles that are not empty,
inside the limit and disjoint, and that cover what was added. After additions only, the bounds are
the bounding box of what was added. -/
theorem gfxRegion_covers (L : GfxRect) :
    (∀ ops : List RegionOp, ∃ w, ops.foldlM Damage.step ⟨gfxRegionInit L, L, ∅⟩ = some w ∧
      w.region.limit = w.limit ∧ w.region.rects.length ≤ 16 ∧
      (∀ r ∈ w.region.rects, ¬ gfxRectIsEmpty r ∧ r ≤ w.limit) ∧
      w.region.rects.Pairwise (fun a b => ¬ overlaps a b) ∧
      ∀ p ∈ w.added, ∃ r ∈ w.region.rects, r.Mem p) ∧
    ∀ rs : List GfxRect, ∃ g, rs.foldlM gfxRegionAdd (gfxRegionInit L) = some g ∧
      IsBoundingBox (rs.flatMap (clipped L)) (gfxRegionBounds g) := by
  refine ⟨fun ops => ?_, fun rs => ?_⟩
  · have hinit : Damage.Ok ⟨gfxRegionInit L, L, ∅⟩ := ⟨.init L, rfl, fun p hp => hp.elim⟩
    obtain ⟨w, hrun, ⟨hcount, hinside, hapart⟩, hlimit, hcovers⟩ := hinit.run ops
    exact ⟨w, hrun, hlimit, hcount, hlimit ▸ hinside, hapart, hcovers⟩
  · obtain ⟨g, hrun, hok, _, _, hboxes⟩ := exists_foldlM_add (.init L) rs
    rw [show (gfxRegionInit L).rects = [] from rfl, append_nil] at hboxes
    refine ⟨g, hrun, isBoundingBox_bounds hok hboxes fun r hr => ?_⟩
    obtain ⟨a, _, hr⟩ := mem_flatMap.1 hr
    exact not_isEmpty_of_mem_clipped hr

end Bongos.Gfx
