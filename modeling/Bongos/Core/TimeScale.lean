import Bongos.Status
import Mathlib.Algebra.Order.Field.Basic
import Mathlib.Tactic.Linarith
import Mathlib.Tactic.NormNum
import Mathlib.Tactic.Ring

/-!
# The clock scaling of `time-core.c`

A tick count is turned into another unit by a multiplication with a 32.32 fixed-point factor. The
factor is a quotient rounded down, and so is the product.
-/

namespace Bongos.Core

def TIME_SHIFT : ℕ := 32

def timeScale (v mult : ℕ) : ℕ := v * mult % 2^128 / 2^TIME_SHIFT % 2^64

/-- `timeMakeMult`, with a place for the result. -/
def timeMakeMult («from» «to» : ℕ) : Except Status ℕ :=
  if «from» = 0 then .error .errInvalid
  else
    let whole := «to» / «from»
    let rem := «to» % «from»
    if whole ≥ 2^32 ∨ rem ≥ 2^32 then .error .errInvalid
    else .ok ((whole * 2^32 % 2^64 + rem * 2^32 % 2^64 / «from») % 2^64)

variable {f t v mult : ℕ}

theorem timeScale_eq (h : v * mult < 2^96) : timeScale v mult = v * mult / 2^32 := by
  have hdiv : v * mult / 2^32 < 2^64 := Nat.div_lt_of_lt_mul h
  rw [timeScale, TIME_SHIFT, Nat.mod_eq_of_lt (h.trans (by decide)), Nat.mod_eq_of_lt hdiv]

/-- No step of the factor overflows if the whole part of the quotient fits in 32 bits. -/
theorem mult_lt (hf : 0 < f) (hwhole : t / f < 2^32) : t / f * 2^32 + t % f * 2^32 / f < 2^64 := by
  have hrest : t % f * 2^32 / f < 2^32 :=
    Nat.div_lt_of_lt_mul (Nat.mul_lt_mul_of_pos_right (Nat.mod_lt t hf) (by decide))
  omega

/-- When there is a factor, and what it is. -/
theorem timeMakeMult_eq_ok : timeMakeMult f t = .ok mult ↔
    (0 < f ∧ t / f < 2^32 ∧ t % f < 2^32) ∧ mult = t * 2^32 / f := by
  unfold timeMakeMult
  dsimp only
  split_ifs with hzero hbig
  · exact iff_of_false nofun fun h => h.1.1.ne' hzero
  · exact iff_of_false nofun fun h => by omega
  have hpos : 0 < f := Nat.pos_of_ne_zero hzero
  have hfits : t / f < 2^32 ∧ t % f < 2^32 := by omega
  have hsum := mult_lt hpos hfits.1
  have hrest : t % f * 2^32 < 2^64 := Nat.mul_lt_mul_of_pos_right hfits.2 (by decide)
  -- The quotient in two parts: the whole one, and the rest of the division.
  have hsplit : t * 2^32 / f = t / f * 2^32 + t % f * 2^32 / f := by
    calc t * 2^32 / f = (f * (t / f) + t % f) * 2^32 / f := by rw [Nat.div_add_mod]
      _ = (f * (t / f * 2^32) + t % f * 2^32) / f := by ring_nf
      _ = t / f * 2^32 + t % f * 2^32 / f := Nat.mul_add_div hpos _ _
  rw [Nat.mod_eq_of_lt ((Nat.le_add_right _ _).trans_lt hsum), Nat.mod_eq_of_lt hrest,
    Nat.mod_eq_of_lt hsum, ← hsplit, Except.ok.injEq, eq_comm]
  exact (and_iff_right ⟨hpos, hfits⟩).symm

/-- A value that is scaled by a factor rounded down, and rounded down again. -/
theorem scaled_bounds {n m x : ℕ} (hf : 0 < f) (hm : m = t * 2^32 / f) (hx : x = n * m / 2^32) :
    (n * t / f - n / 2^32 - 1 : ℚ) < x ∧ (x : ℚ) ≤ n * t / f := by
  have hf' : (0 : ℚ) < f := by exact_mod_cast hf
  have hlow : (m : ℚ) * f ≤ t * 2^32 := by
    rw [hm]
    exact_mod_cast Nat.div_mul_le_self _ _
  have hhigh : (t * 2^32 : ℚ) < (m + 1) * f := by
    rw [hm]
    exact_mod_cast Nat.lt_mul_of_div_lt (Nat.lt_succ_self _) hf
  have hlow' : (x : ℚ) * 2^32 ≤ n * m := by
    rw [hx]
    exact_mod_cast Nat.div_mul_le_self _ _
  have hhigh' : (n * m : ℚ) < (x + 1) * 2^32 := by
    rw [hx]
    exact_mod_cast Nat.lt_mul_of_div_lt (Nat.lt_succ_self _) (by decide)
  have hn : (0 : ℚ) ≤ n := Nat.cast_nonneg n
  constructor
  · have hscaled : (n * t * 2^32 : ℚ) ≤ (n * m + n) * f := by
      calc (n * t * 2^32 : ℚ) = n * (t * 2^32) := by ring
        _ ≤ n * ((m + 1) * f) := mul_le_mul_of_nonneg_left hhigh.le hn
        _ = (n * m + n) * f := by ring
    have hdiv : (n * t / f : ℚ) ≤ (n * m + n) / 2^32 := by
      rwa [div_le_div_iff₀ hf' (by norm_num)]
    linarith
  · rw [le_div_iff₀ hf']
    have hscaled : (x * 2^32 * f : ℚ) ≤ n * (t * 2^32) := by
      calc (x * 2^32 * f : ℚ) ≤ n * m * f := mul_le_mul_of_nonneg_right hlow' hf'.le
        _ = n * (m * f) := by ring
        _ ≤ n * (t * 2^32) := mul_le_mul_of_nonneg_left hlow hn
    linarith

/-- **Scaling by a factor.** There is a factor exactly when both parts of the quotient fit in 32
bits. It is the exact quotient rounded down, and no step of it overflows; scaling by it is monotone,
and below the exact value by less than a unit and a `2^32`th of the tick count. No bound on the two
numbers is needed: all pairs of 64 bits are covered. -/
theorem timeMakeMult_timeScale (f t : ℕ) :
    ((∃ mult, timeMakeMult f t = .ok mult) ↔ 0 < f ∧ t / f < 2^32 ∧ t % f < 2^32) ∧
    ∀ mult, timeMakeMult f t = .ok mult →
      mult = t * 2^32 / f ∧ t / f * 2^32 + t % f * 2^32 / f < 2^64 ∧ t % f * 2^32 < 2^64 ∧
      (∀ v w, v ≤ w → w * mult < 2^96 → timeScale v mult ≤ timeScale w mult) ∧
      ∀ v, v * mult < 2^96 →
        (v * t / f - v / 2^32 - 1 : ℚ) < timeScale v mult ∧ (timeScale v mult : ℚ) ≤ v * t / f := by
  simp only [timeMakeMult_eq_ok]
  refine ⟨⟨fun ⟨_, h, _⟩ => h, fun h => ⟨_, h, rfl⟩⟩, ?_⟩
  rintro mult ⟨⟨hpos, hwhole, hrest⟩, hmult⟩
  refine ⟨hmult, mult_lt hpos hwhole, Nat.mul_lt_mul_of_pos_right hrest (by decide),
    fun v w hvw hw => ?_, fun v hv => scaled_bounds hpos hmult (timeScale_eq hv)⟩
  have hle : v * mult ≤ w * mult := Nat.mul_le_mul_right _ hvw
  rw [timeScale_eq (hle.trans_lt hw), timeScale_eq hw]
  exact Nat.div_le_div_right hle

end Bongos.Core
