import Mathlib.Data.Nat.Notation
import Mathlib.Logic.Function.Basic
import Mathlib.Tactic.SplitIfs

/-!
# Ranges of a map on numbers

A map gives some numbers a value. `extend` gives a range of numbers new values, and `remove` takes
their values away. A loop that treats one number at a time is related to them by `extend_succ` and
`remove_succ`, and `remove_extend` says that removing what was added restores the map.
-/

namespace Bongos.RangeMap

variable {α : Type*} {m : ℕ → Option α} {b n : ℕ} {f : ℕ → α}

/-- The map with the values `f 0`, `f 1`, … at the `n` numbers from `b` on. -/
def extend (m : ℕ → Option α) (b n : ℕ) (f : ℕ → α) : ℕ → Option α := fun v =>
  if b ≤ v ∧ v < b + n then some (f (v - b)) else m v

/-- The map without values at the `n` numbers from `b` on. -/
def remove (m : ℕ → Option α) (b n : ℕ) : ℕ → Option α := fun v =>
  if b ≤ v ∧ v < b + n then none else m v

@[simp]
theorem extend_zero : extend m b 0 f = m := by
  funext v
  exact if_neg (by omega)

@[simp]
theorem remove_zero : remove m b 0 = m := by
  funext v
  exact if_neg (by omega)

/-- The first number of a range can be treated first. -/
theorem extend_succ :
    extend m b (n + 1) f = extend (Function.update m b (some (f 0))) (b + 1) n fun i =>
      f (i + 1) := by
  funext v
  by_cases hv : v = b
  · subst hv
    rw [extend, extend, if_pos (by omega), if_neg (by omega), Function.update_self, Nat.sub_self]
  · by_cases h : b + 1 ≤ v ∧ v < b + 1 + n
    · have : v - b = v - (b + 1) + 1 := by omega
      simp [extend, h, show b ≤ v ∧ v < b + (n + 1) by omega, this]
    · rw [extend, extend, if_neg (by omega), if_neg h, Function.update_of_ne hv]

theorem remove_succ : remove m b (n + 1) = remove (Function.update m b none) (b + 1) n := by
  funext v
  by_cases hv : v = b
  · subst hv
    simp [remove]
  · by_cases h : b + 1 ≤ v ∧ v < b + 1 + n
    · simp [remove, h, show b ≤ v ∧ v < b + (n + 1) by omega]
    · rw [remove, remove, if_neg (by omega), if_neg h, Function.update_of_ne hv]

/-- Removing what was added restores the map. -/
theorem remove_extend (h : ∀ i < n, m (b + i) = none) : remove (extend m b n f) b n = m := by
  funext v
  unfold remove extend
  split_ifs with hv
  · have := h (v - b) (by omega)
    rwa [Nat.add_sub_cancel' hv.1, eq_comm] at this
  · rfl

theorem extend_apply_add {i : ℕ} (hi : i < n) : extend m b n f (b + i) = some (f i) := by
  simp [extend, hi]

end Bongos.RangeMap
