import Mathlib.Data.List.Basic

/-!
# Replacing pairs by tokens

A sequence of symbols stands for the concatenation of what its symbols stand for. If a new symbol
stands for what the two symbols of a pair stand for, replacing the pair everywhere keeps the meaning
of the sequence, and does not make it longer.
-/

namespace Bongos

open List

variable {α β : Type*} [DecidableEq α]

/-- Every occurrence of `a` followed by `b`, from the left, becomes `new`. -/
def replacePair (a b new : α) : List α → List α
  | x :: y :: rest =>
    if x = a ∧ y = b then new :: replacePair a b new rest
    else x :: replacePair a b new (y :: rest)
  | l => l

/-- The meaning is kept. -/
theorem flatMap_replacePair {f : α → List β} {a b new : α} (hnew : f new = f a ++ f b)
    (l : List α) : (replacePair a b new l).flatMap f = l.flatMap f := by
  fun_induction replacePair a b new l with
  | case1 x y rest hxy ih => simp [ih, hnew, hxy.1, hxy.2]
  | case2 x y rest hxy ih => rw [flatMap_cons, ih, ← flatMap_cons]
  | case3 l hl => rfl

theorem length_replacePair_le (a b new : α) (l : List α) :
    (replacePair a b new l).length ≤ l.length := by
  fun_induction replacePair a b new l with
  | case1 x y rest hxy ih =>
    simp only [length_cons]
    omega
  | case2 x y rest hxy ih =>
    simp only [length_cons] at ih ⊢
    omega
  | case3 l hl => exact Nat.le_refl _

/-- No other symbol appears. -/
theorem mem_replacePair {a b new x : α} {l : List α} (h : x ∈ replacePair a b new l) :
    x = new ∨ x ∈ l := by
  fun_induction replacePair a b new l with
  | case1 y z rest hyz ih =>
    rcases mem_cons.1 h with h | h
    · exact .inl h
    · exact (ih h).imp_right fun h => mem_cons_of_mem y (mem_cons_of_mem z h)
  | case2 y z rest hyz ih =>
    rcases mem_cons.1 h with h | h
    · exact .inr (h ▸ mem_cons_self)
    · exact (ih h).imp_right (mem_cons_of_mem y)
  | case3 l hl => exact .inr h

end Bongos
