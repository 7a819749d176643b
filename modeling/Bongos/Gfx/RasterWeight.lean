import Bongos.Gfx.Raster
import Mathlib.Algebra.BigOperators.Group.Finset.Piecewise
import Mathlib.Tactic.Ring

/-!
# What an edge adds to a pixel

The sweep gives a pixel the coverage `coverage rule (acc * 512 - area)`. Both terms are sums over
the edges, and what an edge adds to them depends on the edge and on the pixel only (`weight`), not
on the box, the band or the clip: a piece is cut at the boundaries of cells by an interpolation that
is monotone and exact at both ends, so its parts add up to what the cuts between them would give
(`rowWeight_addRowPiece`).
-/

namespace Bongos.Gfx

variable {xa ya xb yb dir h s t x X b : ℤ} {m : Cells} {off w i j : ℕ}

/-! ## The interpolation -/

/-- How much of a piece from `xa` to `xb` of the height `h` is left of `t`. -/
def passed (xa xb h t : ℤ) : ℤ :=
  if t ≤ xa then 0 else if xb ≤ t then h else (t - xa) * h / (xb - xa)

theorem extent_nonneg : 0 ≤ extent ya yb := by
  unfold extent
  split_ifs <;> omega

theorem extent_comm : extent ya yb = extent yb ya := by
  unfold extent
  split_ifs <;> omega

theorem passed_eq (hlt : xa < xb) (ha : xa ≤ t) (hb : t ≤ xb) :
    passed xa xb h t = (t - xa) * h / (xb - xa) := by
  unfold passed
  split_ifs with h1 h2
  · rw [show t - xa = 0 by omega, zero_mul, Int.zero_ediv]
  · rw [show t = xb by omega, Int.mul_ediv_cancel_left _ (by omega)]
  · rfl

theorem passed_mono (hlt : xa < xb) (hh : 0 ≤ h) (ha : xa ≤ s) (hst : s ≤ t) (hb : t ≤ xb) :
    passed xa xb h s ≤ passed xa xb h t := by
  rw [passed_eq hlt ha (hst.trans hb), passed_eq hlt (ha.trans hst) hb]
  exact Int.ediv_le_ediv (by omega) (Int.mul_le_mul_of_nonneg_right (by omega) hh)

/-- The interpolated ordinate, by the height that it passed. -/
theorem segYAtX_eq (hlt : xa < xb) (ha : xa ≤ t) (hb : t ≤ xb) : segYAtX xa ya xb yb t =
      if yb ≥ ya then ya + passed xa xb (extent ya yb) t
      else ya - passed xa xb (extent ya yb) t := by
  have hseg : segYAtX xa ya xb yb t = ya + ((t - xa) * (yb - ya)).tdiv (xb - xa) := by
    unfold segYAtX
    split_ifs with h1 h2
    · rw [h1, sub_self, zero_mul, Int.zero_tdiv, add_zero]
    · rw [h2, Int.mul_tdiv_cancel_left _ (by omega)]
      omega
    · rfl
  rw [hseg, passed_eq hlt ha hb]
  unfold extent
  split_ifs with hy
  · rw [Int.tdiv_eq_ediv_of_nonneg (mul_nonneg (by omega) (by omega))]
  · -- Below `ya` the quotient is rounded towards zero, which is up.
    rw [show (t - xa) * (yb - ya) = -((t - xa) * (ya - yb)) by ring, Int.neg_tdiv,
      Int.tdiv_eq_ediv_of_nonneg (mul_nonneg (by omega) (by omega)), ← sub_eq_add_neg]

theorem extent_segYAtX (hlt : xa < xb) (ha : xa ≤ s) (hst : s ≤ t) (hb : t ≤ xb) :
    extent (segYAtX xa ya xb yb s) (segYAtX xa ya xb yb t) =
      passed xa xb (extent ya yb) t - passed xa xb (extent ya yb) s := by
  have hmono := passed_mono hlt extent_nonneg ha hst hb (h := extent ya yb)
  rw [segYAtX_eq hlt ha (hst.trans hb), segYAtX_eq hlt (ha.trans hst) hb]
  generalize passed xa xb (extent ya yb) t = p at *
  generalize passed xa xb (extent ya yb) s = q at *
  unfold extent
  split_ifs <;> omega

/-! ## The weight of a piece -/

/-- The area that a piece has in the cell `X`. -/
def cellArea (xa xb h X : ℤ) : ℤ :=
  if xa = xb then if xa / 256 = X then h * (xa % 256 * 2) else 0
  else
    let xl := max xa (X * 256)
    let xr := min xb ((X + 1) * 256)
    (passed xa xb h xr - passed xa xb h xl) * ((xl - X * 256) + (xr - X * 256))

/-- What a piece that goes from `xa` to `xb` adds to the pixel `X` of its row. -/
def pieceWeight (xa xb h X : ℤ) : ℤ := 512 * passed xa xb h ((X + 1) * 256) - cellArea xa xb h X

/-- What the sweep of the row at `off` computes for the pixel `x`. -/
def rowWeight (m : Cells) (off x : ℕ) : ℤ :=
  512 * ∑ c ∈ Finset.range (x + 1), (m (off + c)).1 - (m (off + x)).2

/-- Only the places relative to the cells matter. -/
theorem pieceWeight_shift :
    pieceWeight (xa - b * 256) (xb - b * 256) h x = pieceWeight xa xb h (x + b) := by
  have hpassed : ∀ t, passed (xa - b * 256) (xb - b * 256) h t = passed xa xb h (t + b * 256) := by
    intro t
    unfold passed
    rw [show t + b * 256 - xa = t - (xa - b * 256) by ring,
      show xb - b * 256 - (xa - b * 256) = xb - xa by ring]
    simp only [le_sub_iff_add_le, sub_le_iff_le_add]
  have hdiv : (xa - b * 256) / 256 = xa / 256 - b := by omega
  have hmod : (xa - b * 256) % 256 = xa % 256 := by omega
  have hmax : max (xa - b * 256) (x * 256) + b * 256 = max xa ((x + b) * 256) := by omega
  have hmin : min (xb - b * 256) ((x + 1) * 256) + b * 256 = min xb ((x + b + 1) * 256) := by omega
  unfold pieceWeight cellArea
  simp only [hpassed, hdiv, hmod, hmax, hmin, sub_left_inj]
  rw [show (x + 1) * 256 + b * 256 = (x + b + 1) * 256 by ring]
  congr 1
  split_ifs with h1 h2 h3 h3
  · rfl
  · omega
  · omega
  · rfl
  · congr 1
    omega

/-- The cells that a piece does not reach have no area of it. -/
theorem cellArea_eq_zero (hlt : xa < xb) (hX : xb ≤ X * 256 ∨ (X + 1) * 256 ≤ xa) :
    cellArea xa xb h X = 0 := by
  unfold cellArea
  rw [if_neg hlt.ne]
  dsimp only
  have hpassed : passed xa xb h (min xb ((X + 1) * 256)) = passed xa xb h (max xa (X * 256)) := by
    rcases hX with hX | hX
    · rw [min_eq_left (by omega), max_eq_right (by omega)]
      unfold passed
      rw [if_neg (by omega), if_pos le_rfl, if_neg (by omega), if_pos hX]
    · rw [min_eq_right (by omega), max_eq_left (by omega)]
      unfold passed
      rw [if_pos hX, if_pos le_rfl]
  rw [hpassed, sub_self, zero_mul]

theorem pieceWeight_left (hle : xa ≤ xb) (hX : (X + 1) * 256 ≤ xa) :
    pieceWeight xa xb h X = 0 := by
  rw [pieceWeight, passed, if_pos hX]
  rcases eq_or_lt_of_le hle with rfl | hlt
  · rw [cellArea, if_pos rfl, if_neg (by omega)]
    rfl
  · rw [cellArea_eq_zero hlt (.inr hX)]
    rfl

theorem pieceWeight_right (hle : xa ≤ xb) (hX : xb ≤ X * 256) :
    pieceWeight xa xb h X = 512 * h := by
  rw [pieceWeight, passed, if_neg (by omega), if_pos (by omega)]
  rcases eq_or_lt_of_le hle with rfl | hlt
  · unfold cellArea
    rw [if_pos rfl]
    split_ifs with hcell
    · rw [show xa % 256 = 0 by omega, zero_mul, mul_zero, sub_zero]
    · rw [sub_zero]
  · rw [cellArea_eq_zero hlt (.inl hX), sub_zero]

/-! ## Adding to cells -/

theorem rowWeight_addTo (m : Cells) (off i x : ℕ) (cover area : ℤ) :
    rowWeight (addTo m (off + i) cover area) off x =
      rowWeight m off x + (if i ≤ x then 512 * cover else 0) - if i = x then area else 0 := by
  have hcover : ∀ c, (addTo m (off + i) cover area (off + c)).1 =
      (m (off + c)).1 + if c = i then cover else 0 := by
    intro c
    unfold addTo
    simp only [Nat.add_left_cancel_iff]
    split_ifs <;> simp
  have harea : (addTo m (off + i) cover area (off + x)).2 =
      (m (off + x)).2 + if i = x then area else 0 := by
    unfold addTo
    simp only [Nat.add_left_cancel_iff, eq_comm]
    split_ifs <;> simp
  unfold rowWeight
  simp only [hcover, harea, Finset.sum_add_distrib, Finset.sum_ite_eq', Finset.mem_range,
    Nat.lt_add_one_iff]
  split_ifs <;> ring

/-- The area of the part of a piece between `lo` and `hi` that is in the cell `X`. -/
def partArea (lo hi xa xb h X : ℤ) : ℤ :=
  (passed xa xb h (min hi ((X + 1) * 256)) - passed xa xb h (max lo (X * 256))) *
    ((max lo (X * 256) - X * 256) + (min hi ((X + 1) * 256) - X * 256))

/-- A round of the loop adds what the piece passes in the cell. -/
theorem addCell_eq {lo hi c : ℤ} (hlt : xa < xb) (hlo : xa ≤ lo) (hhi : hi ≤ xb)
    (hc : lo < (c + 1) * 256) (hc' : c * 256 < hi) (hlohi : lo < hi) :
    addCell off lo hi xa ya xb yb dir m c = addTo m (off + c.toNat)
      (dir * (passed xa xb (extent ya yb) (min hi ((c + 1) * 256)) -
        passed xa xb (extent ya yb) (max lo (c * 256))))
      (dir * partArea lo hi xa xb (extent ya yb) c) := by
  have hxl : (if lo > c * 256 then lo else c * 256) = max lo (c * 256) := by split_ifs <;> omega
  have hxr : (if hi < (c + 1) * 256 then hi else (c + 1) * 256) = min hi ((c + 1) * 256) := by
    split_ifs <;> omega
  unfold addCell
  simp only [hxl, hxr]
  rw [extent_segYAtX hlt (by omega) (by omega) (by omega), partArea, mul_assoc dir]

variable {x : ℕ}

/-- The rounds up to the cell `n`: what they passed, and the area in the cell `x`. -/
theorem rowWeight_foldl_addCell {lo hi n : ℤ} (hlt : xa < xb) (hlo : xa ≤ lo) (hlo' : 0 ≤ lo)
    (hhi : hi ≤ xb) (hlohi : lo < hi) (hn : lo / 256 ≤ n) (hn' : n ≤ (hi - 1) / 256 + 1) :
    rowWeight ((countUp (lo / 256) n 1).foldl (addCell off lo hi xa ya xb yb dir) m) off x =
      rowWeight m off x +
        dir * (512 * (passed xa xb (extent ya yb) (max lo (min hi (min n (x + 1) * 256))) -
          passed xa xb (extent ya yb) lo) -
        if lo / 256 ≤ x ∧ (x : ℤ) < n then partArea lo hi xa xb (extent ya yb) x else 0) := by
  induction n, hn using Int.leInduction with
  | base =>
    have hmax : max lo (min hi (min (lo / 256) (x + 1) * 256)) = lo := by omega
    rw [countUp_self, hmax, if_neg (by omega)]
    simp
  | succ n hn ih =>
    rw [countUp_succ hn, List.foldl_append, List.foldl_cons, List.foldl_nil,
      addCell_eq hlt hlo hhi (by omega) (by omega) hlohi, rowWeight_addTo, ih (by omega)]
    -- The part of this round starts where that of the last one ended.
    rcases lt_trichotomy n x with hx | rfl | hx
    · have hend : max lo (min hi (min n (x + 1) * 256)) = max lo (n * 256) := by omega
      have hend' : max lo (min hi (min (n + 1) (x + 1) * 256)) = min hi ((n + 1) * 256) := by omega
      rw [hend, hend', if_neg (by omega), if_pos (by omega), if_neg (by omega), if_neg (by omega)]
      ring
    · have hend : max lo (min hi (min (x : ℤ) (x + 1) * 256)) = max lo (x * 256) := by omega
      have hend' : max lo (min hi (min ((x : ℤ) + 1) (x + 1) * 256)) = min hi ((x + 1) * 256) := by
        omega
      rw [hend, hend', if_neg (by omega), if_pos (by omega), if_pos (by omega), if_pos (by omega)]
      ring
    · have hend : max lo (min hi (min n (x + 1) * 256)) =
          max lo (min hi (min (n + 1) (x + 1) * 256)) := by omega
      rw [hend, if_neg (show ¬ n.toNat ≤ x by omega), if_neg (show n.toNat ≠ x by omega)]
      have hiff : (lo / 256 ≤ x ∧ (x : ℤ) < n + 1) ↔ (lo / 256 ≤ x ∧ (x : ℤ) < n) := by omega
      simp only [hiff]
      ring

/-- What a piece with two different ends adds, if its part up to `lo` is already in the cell 0. -/
theorem rowWeight_addCells (hlt : xa < xb) (hx : x < w) (hxa : xa < w * 256) (hxb : 0 < xb) :
    rowWeight (addCells m off (max xa 0) (min xb (w * 256)) xa ya xb yb dir) off x =
      rowWeight m off x + dir * (pieceWeight xa xb (extent ya yb) x -
        512 * passed xa xb (extent ya yb) (max xa 0)) := by
  unfold addCells
  rw [rowWeight_foldl_addCell hlt (by omega) (by omega) (by omega) (by omega) (by omega) le_rfl]
  set h := extent ya yb
  have hpassed : passed xa xb h (max (max xa 0) (min (min xb (w * 256))
      (min ((min xb (w * 256) - 1) / 256 + 1) (x + 1) * 256))) =
        passed xa xb h ((x + 1) * 256) := by
    rcases le_or_gt ((x + 1 : ℤ) * 256) xa with hleft | hleft
    · rw [show max (max xa 0) (min (min xb ((w : ℤ) * 256))
        (min ((min xb (w * 256) - 1) / 256 + 1) (x + 1) * 256)) = xa by omega]
      unfold passed
      rw [if_pos le_rfl, if_pos hleft]
    rcases le_or_gt xb ((x + 1 : ℤ) * 256) with hright | hright
    · rw [show max (max xa 0) (min (min xb ((w : ℤ) * 256))
        (min ((min xb (w * 256) - 1) / 256 + 1) (x + 1) * 256)) = xb by omega]
      unfold passed
      rw [if_neg (by omega), if_pos le_rfl, if_neg (by omega), if_pos hright]
    · congr 1
      omega
  have harea : (if max xa 0 / 256 ≤ (x : ℤ) ∧ (x : ℤ) < (min xb (w * 256) - 1) / 256 + 1 then
      partArea (max xa 0) (min xb (w * 256)) xa xb h x else 0) = cellArea xa xb h x := by
    split_ifs with hin
    · unfold partArea cellArea
      rw [if_neg hlt.ne, show max (max xa 0) ((x : ℤ) * 256) = max xa (x * 256) by omega,
        show min (min xb ((w : ℤ) * 256)) ((x + 1) * 256) = min xb ((x + 1) * 256) by omega]
    · exact (cellArea_eq_zero hlt (by omega)).symm
  rw [hpassed, harea, pieceWeight]
  ring

/-- A piece of which the ends are in order adds its weight to every pixel of its row. -/
theorem rowWeight_addOrderedPiece (hle : xa ≤ xb) (hx : x < w) :
    rowWeight (addOrderedPiece m off w xa ya xb yb dir) off x =
      rowWeight m off x + dir * pieceWeight xa xb (extent ya yb) x := by
  have hcell0 : ∀ cover, rowWeight (addTo m off cover 0) off x =
      rowWeight m off x + 512 * cover := by
    intro cover
    have hadd := rowWeight_addTo m off 0 x cover 0
    rw [Nat.add_zero, if_pos (Nat.zero_le x)] at hadd
    rw [hadd]
    simp
  have hhi : (if xb < (w : ℤ) * 256 then xb else (w : ℤ) * 256) = min xb (w * 256) := by
    split_ifs <;> omega
  unfold addOrderedPiece
  dsimp only
  rw [hhi]
  split_ifs with hleft hright hvert hneg
  · -- wholly left
    rw [hcell0, pieceWeight_right hle (by omega)]
    ring
  · -- wholly right
    rw [pieceWeight_left hle (by omega), mul_zero, add_zero]
  · -- vertical
    subst hvert
    rw [rowWeight_addTo, pieceWeight, passed, cellArea, if_pos rfl]
    split_ifs <;> first | omega | ring
  · -- cut by the left side
    have hlo : (0 : ℤ) = max xa 0 := by omega
    have hlt : xa < xb := by omega
    have hfirst : extent ya (segYAtX xa ya xb yb 0) = passed xa xb (extent ya yb) (max xa 0) := by
      rw [← hlo]
      calc extent ya (segYAtX xa ya xb yb 0)
          = extent (segYAtX xa ya xb yb xa) (segYAtX xa ya xb yb 0) := by simp [segYAtX]
        _ = passed xa xb (extent ya yb) 0 - passed xa xb (extent ya yb) xa :=
            extent_segYAtX hlt le_rfl hneg.le (by omega)
        _ = passed xa xb (extent ya yb) 0 := by simp [passed]
    have hcells : ∀ m' : Cells, addCells m' off 0 (min xb (w * 256)) xa ya xb yb dir =
        addCells m' off (max xa 0) (min xb (w * 256)) xa ya xb yb dir := fun m' => by rw [← hlo]
    rw [hcells, rowWeight_addCells hlt hx (by omega) (by omega), hcell0, hfirst]
    ring
  · -- from a cell of the row on
    have hlo : max xa 0 = xa := by omega
    have hlt : xa < xb := by omega
    have hcells : addCells m off xa (min xb (w * 256)) xa ya xb yb dir =
        addCells m off (max xa 0) (min xb (w * 256)) xa ya xb yb dir := by rw [hlo]
    rw [hcells, rowWeight_addCells hlt hx (by omega) (by omega), hlo,
      show passed xa xb (extent ya yb) xa = 0 by simp [passed]]
    ring

/-- A piece adds its weight to every pixel of its row. -/
theorem rowWeight_addRowPiece (hx : x < w) : rowWeight (addRowPiece m off w xa ya xb yb dir) off x =
      rowWeight m off x + dir * pieceWeight (min xa xb) (max xa xb) (extent ya yb) x := by
  unfold addRowPiece
  split_ifs with hswap
  · rw [rowWeight_addOrderedPiece hswap.le hx, extent_comm, min_eq_right hswap.le,
      max_eq_left hswap.le]
  · rw [rowWeight_addOrderedPiece (by omega) hx, min_eq_left (by omega), max_eq_right (by omega)]

theorem addTo_frame {cover area : ℤ} (h : j ≠ i) : addTo m i cover area j = m j := if_neg h

theorem addCells_frame {lo hi : ℤ} (hi' : hi ≤ w * 256) (hlo : 0 ≤ lo)
    (hj : j < off ∨ off + w ≤ j) : addCells m off lo hi xa ya xb yb dir j = m j := by
  refine List.foldlRecOn (motive := fun m' : Cells => m' j = m j) _ _ rfl fun m' hm' c hc => ?_
  rw [mem_countUp_one] at hc
  unfold addCell
  rw [addTo_frame (by omega), hm']

/-- A piece changes only the cells of its row. -/
theorem addRowPiece_frame (hw : 0 < w) (hj : j < off ∨ off + w ≤ j) :
    addRowPiece m off w xa ya xb yb dir j = m j := by
  have hordered : ∀ xa ya xb yb, xa ≤ xb → addOrderedPiece m off w xa ya xb yb dir j = m j := by
    intro xa ya xb yb hle
    unfold addOrderedPiece
    dsimp only
    split_ifs with hleft hright hvert hneg
    · exact addTo_frame (by omega)
    · rfl
    · exact addTo_frame (by omega)
    · rw [addCells_frame (by omega) le_rfl hj, addTo_frame (by omega)]
    · rw [addCells_frame (by omega) le_rfl hj, addTo_frame (by omega)]
    · rw [addCells_frame (by omega) (by omega) hj]
    · rw [addCells_frame (by omega) (by omega) hj]
  unfold addRowPiece
  split_ifs with hswap
  · exact hordered _ _ _ _ hswap.le
  · exact hordered _ _ _ _ (by omega)

/-- Cells of other rows do not matter. -/
theorem rowWeight_congr {m' : Cells} (h : ∀ c ≤ x, m' (off + c) = m (off + c)) :
    rowWeight m' off x = rowWeight m off x := by
  unfold rowWeight
  rw [h x le_rfl, Finset.sum_congr rfl fun c hc => by
    rw [h c (Nat.le_of_lt_succ (Finset.mem_range.1 hc))]]

end Bongos.Gfx
