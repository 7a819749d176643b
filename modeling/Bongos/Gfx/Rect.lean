import Mathlib.Tactic.Linarith

/-!
# Rectangles

`GfxRect` and its operations (`gfx.h`, `canvas.c`). A coordinate is an `int32_t`, and a rectangle is
half-open. Rectangles are ordered by their sides: `r ≤ s` is the test `contains` of `region.c`, and
the bounding box of some rectangles is their least upper bound.
-/

namespace Bongos.Gfx

/-- `int32_t`. -/
abbrev I32 := {z : ℤ // -2^31 ≤ z ∧ z ≤ 2^31 - 1}

/-- Zero is an `int32_t`. -/
theorem zero_i32 : -2^31 ≤ (0 : ℤ) ∧ (0 : ℤ) ≤ 2^31 - 1 := by decide

/-- `INT32_MIN` is one. -/
theorem least_i32 : -2^31 ≤ (-2^31 : ℤ) ∧ (-2^31 : ℤ) ≤ 2^31 - 1 := by decide

/-- `INT32_MAX` is one. -/
theorem greatest_i32 : -2^31 ≤ (2^31 - 1 : ℤ) ∧ (2^31 - 1 : ℤ) ≤ 2^31 - 1 := by decide

/-- `sat`: the `int32_t` nearest to a number. -/
def sat (v : ℤ) : I32 :=
  if h : v > 2^31 - 1 then ⟨2^31 - 1, greatest_i32⟩
  else if h' : v < -2^31 then ⟨-2^31, least_i32⟩
  else ⟨v, by omega⟩

/-- Saturation as a number. -/
theorem coe_sat (v : ℤ) : (sat v : ℤ) = max (-2^31) (min (2^31 - 1) v) := by
  unfold sat
  split_ifs <;> dsimp only <;> omega

/-- The pixels from `(x0, y0)` on, before `(x1, y1)`. -/
@[ext]
structure GfxRect where
  x0 : I32
  y0 : I32
  x1 : I32
  y1 : I32
  deriving DecidableEq

/-- The rectangle `{0, 0, 0, 0}`. -/
def emptyRect : GfxRect := ⟨⟨0, zero_i32⟩, ⟨0, zero_i32⟩, ⟨0, zero_i32⟩, ⟨0, zero_i32⟩⟩

/-- A rectangle without pixels. -/
def gfxRectIsEmpty (r : GfxRect) : Prop := (r.x0 : ℤ) ≥ r.x1 ∨ (r.y0 : ℤ) ≥ r.y1

instance (r : GfxRect) : Decidable (gfxRectIsEmpty r) :=
  inferInstanceAs (Decidable (_ ∨ _))

/-- `a > b ? a : b`. -/
def larger (a b : I32) : I32 := if (a : ℤ) > b then a else b

/-- `a < b ? a : b`. -/
def smaller (a b : I32) : I32 := if (a : ℤ) < b then a else b

/-- The common part; `{0, 0, 0, 0}` if there is none. -/
def gfxRectIntersect (a b : GfxRect) : GfxRect :=
  let r : GfxRect :=
    ⟨larger a.x0 b.x0, larger a.y0 b.y0, smaller a.x1 b.x1, smaller a.y1 b.y1⟩
  if gfxRectIsEmpty r then emptyRect else r

/-- The bounding box. An empty rectangle does not count. -/
def gfxRectUnion (a b : GfxRect) : GfxRect :=
  if gfxRectIsEmpty a then if gfxRectIsEmpty b then emptyRect else b
  else if gfxRectIsEmpty b then a
  else ⟨smaller a.x0 b.x0, smaller a.y0 b.y0, larger a.x1 b.x1, larger a.y1 b.y1⟩

/-- `larger` as a number. -/
@[simp]
theorem coe_larger (a b : I32) : (larger a b : ℤ) = max (a : ℤ) b := by
  unfold larger
  split_ifs <;> omega

/-- `smaller` as a number. -/
@[simp]
theorem coe_smaller (a b : I32) : (smaller a b : ℤ) = min (a : ℤ) b := by
  unfold smaller
  split_ifs <;> omega

/-! ## The order -/

/-- `r ≤ s` is `contains(s, r)`. -/
instance : PartialOrder GfxRect where
  le r s := (s.x0 : ℤ) ≤ r.x0 ∧ (s.y0 : ℤ) ≤ r.y0 ∧ (r.x1 : ℤ) ≤ s.x1 ∧ (r.y1 : ℤ) ≤ s.y1
  le_refl r := ⟨le_rfl, le_rfl, le_rfl, le_rfl⟩
  le_trans r s t h h' := by omega
  le_antisymm r s h h' := by
    refine GfxRect.ext (Subtype.ext ?_) (Subtype.ext ?_) (Subtype.ext ?_) (Subtype.ext ?_) <;> omega

/-- The order, unfolded. -/
theorem le_def {r s : GfxRect} : r ≤ s ↔
    (s.x0 : ℤ) ≤ r.x0 ∧ (s.y0 : ℤ) ≤ r.y0 ∧ (r.x1 : ℤ) ≤ s.x1 ∧ (r.y1 : ℤ) ≤ s.y1 := Iff.rfl

instance (r s : GfxRect) : Decidable (r ≤ s) := decidable_of_iff' _ le_def

/-- The pixel is in the rectangle. -/
def GfxRect.Mem (r : GfxRect) (p : ℤ × ℤ) : Prop :=
  (r.x0 : ℤ) ≤ p.1 ∧ p.1 < r.x1 ∧ (r.y0 : ℤ) ≤ p.2 ∧ p.2 < r.y1

instance (r : GfxRect) (p : ℤ × ℤ) : Decidable (r.Mem p) := inferInstanceAs (Decidable (_ ∧ _))

variable {a b r s : GfxRect} {p : ℤ × ℤ}

/-- A larger rectangle has the pixels of a smaller one. -/
theorem GfxRect.Mem.mono (h : r.Mem p) (hrs : r ≤ s) : s.Mem p := by
  rw [le_def] at hrs
  unfold GfxRect.Mem at *
  omega

/-- A rectangle is not empty exactly if it has a pixel. -/
theorem not_isEmpty_iff : ¬ gfxRectIsEmpty r ↔ ∃ p, r.Mem p := by
  unfold gfxRectIsEmpty GfxRect.Mem
  refine ⟨fun h => ⟨(r.x0, r.y0), by dsimp only; omega⟩, fun ⟨p, h⟩ => by omega⟩

/-- `{0, 0, 0, 0}` has no pixel. -/
theorem not_mem_emptyRect : ¬ emptyRect.Mem p := by
  unfold GfxRect.Mem emptyRect
  dsimp only
  omega

/-- The intersection of two rectangles holds the pixels of both. -/
theorem mem_intersect : (gfxRectIntersect a b).Mem p ↔ a.Mem p ∧ b.Mem p := by
  unfold gfxRectIntersect
  dsimp only
  split_ifs with h
  · unfold gfxRectIsEmpty at h
    simp only [coe_larger, coe_smaller] at h
    refine ⟨fun hmem => absurd hmem not_mem_emptyRect, fun hmem => ?_⟩
    unfold GfxRect.Mem at hmem
    omega
  · unfold GfxRect.Mem
    simp only [coe_larger, coe_smaller]
    omega

/-- An intersection that is not empty is inside both rectangles. -/
theorem intersect_le (h : ¬ gfxRectIsEmpty (gfxRectIntersect a b)) :
    gfxRectIntersect a b ≤ a ∧ gfxRectIntersect a b ≤ b := by
  have hne : ¬ gfxRectIsEmpty emptyRect → False := fun h => h (by decide)
  unfold gfxRectIntersect at h ⊢
  dsimp only at h ⊢
  split_ifs at h ⊢ with hempty
  · exact (hne h).elim
  · simp only [le_def, coe_larger, coe_smaller]
    omega

/-- The union of two rectangles that are not empty is their least upper bound. -/
theorem isLUB_union (ha : ¬ gfxRectIsEmpty a) (hb : ¬ gfxRectIsEmpty b) :
    IsLUB {a, b} (gfxRectUnion a b) := by
  unfold gfxRectUnion
  rw [if_neg ha, if_neg hb]
  refine ⟨?_, fun c hc => ?_⟩
  · rintro c (rfl | rfl) <;> simp only [le_def, coe_larger, coe_smaller] <;> omega
  · have h1 := le_def.1 (hc (.inl rfl))
    have h2 := le_def.1 (hc (.inr rfl))
    simp only [le_def, coe_larger, coe_smaller]
    omega

/-- What is around both is around the union. -/
theorem union_le_iff (ha : ¬ gfxRectIsEmpty a) (hb : ¬ gfxRectIsEmpty b) :
    gfxRectUnion a b ≤ r ↔ a ≤ r ∧ b ≤ r := by
  rw [isLUB_le_iff (isLUB_union ha hb)]
  simp [upperBounds]

/-- A rectangle around one that is not empty is not empty. -/
theorem not_isEmpty_of_le (h : ¬ gfxRectIsEmpty a) (hab : a ≤ b) : ¬ gfxRectIsEmpty b := by
  obtain ⟨p, hp⟩ := not_isEmpty_iff.1 h
  exact not_isEmpty_iff.2 ⟨p, hp.mono hab⟩

end Bongos.Gfx
