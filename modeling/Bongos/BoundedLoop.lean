import Mathlib.Algebra.BigOperators.Group.List.Basic
import Mathlib.Data.List.Nodup
import Mathlib.Data.List.Range
import Mathlib.Tactic.Linarith

/-!
# Loops that end

A `while` loop of C code is a step that may say that the loop is over. It is run with a bound on the
number of rounds, and has no result when the bound is too small. A loop whose rounds make a number
smaller ends within that many rounds, and ends in a state in which no round is left.

A `for` loop over a variable is a fold over the values that it takes (`countUp`).
-/

namespace Bongos

open List

variable {σ : Type*} {step : σ → Option σ} {P : σ → Prop} {μ : σ → ℕ}

/-- The state in which the loop ends, if it ends within `n` tests of its condition. -/
def runLoop (step : σ → Option σ) : ℕ → σ → Option σ
  | 0, _ => none
  | n + 1, s =>
    match step s with
    | none => some s
    | some s' => runLoop step n s'

/-- A loop whose rounds keep `P` and make `μ` smaller ends, and in a state with `P`. -/
theorem exists_runLoop (hstep : ∀ {s s'}, P s → step s = some s' → P s' ∧ μ s' < μ s)
    {n : ℕ} {s : σ} (hP : P s) (hn : μ s < n) :
    ∃ s', runLoop step n s = some s' ∧ step s' = none ∧ P s' := by
  induction n generalizing s with
  | zero => exact absurd hn (Nat.not_lt_zero _)
  | succ n ih =>
    rw [runLoop]
    cases hs : step s with
    | none => exact ⟨s, rfl, hs, hP⟩
    | some s1 =>
      obtain ⟨hP1, hlt⟩ := hstep hP hs
      exact ih hP1 (Nat.lt_of_lt_of_le hlt (Nat.le_of_lt_succ hn))

/-- The values of `v` in `for (v = lo; v < hi; v += step)`. -/
def countUp (lo hi step : ℤ) : List ℤ :=
  (List.range ((hi - lo + (step - 1)) / step).toNat).map fun k : ℕ => lo + k * step

variable {lo hi v : ℤ} {d : ℤ}

theorem mem_countUp (hd : 0 < d) : v ∈ countUp lo hi d ↔ v < hi ∧ ∃ k : ℕ, v = lo + k * d := by
  simp only [countUp, mem_map, mem_range]
  -- `k` is below the rounded up quotient exactly if `lo + k * d` is below `hi`.
  have hlt : ∀ k : ℕ, k < ((hi - lo + (d - 1)) / d).toNat ↔ lo + k * d < hi := by
    intro k
    rw [Int.lt_toNat, Int.lt_iff_add_one_le, Int.le_ediv_iff_mul_le hd, add_mul]
    constructor <;> intro h <;> linarith
  constructor
  · rintro ⟨k, hk, rfl⟩
    exact ⟨(hlt k).1 hk, k, rfl⟩
  · rintro ⟨hv, k, rfl⟩
    exact ⟨k, (hlt k).2 hv, rfl⟩

theorem mem_countUp_one : v ∈ countUp lo hi 1 ↔ lo ≤ v ∧ v < hi := by
  rw [mem_countUp Int.one_pos]
  refine ⟨fun ⟨hv, k, hk⟩ => by omega, fun ⟨hlo, hv⟩ => ⟨hv, (v - lo).toNat, by omega⟩⟩

theorem countUp_self : countUp lo lo 1 = [] := by
  simp [countUp]

/-- The last value of a loop that counts by one. -/
theorem countUp_succ (h : lo ≤ hi) : countUp lo (hi + 1) 1 = countUp lo hi 1 ++ [hi] := by
  have hlen : (hi + 1 - lo + (1 - 1)) / 1 = (((hi - lo).toNat + 1 : ℕ) : ℤ) := by omega
  have hlen' : (hi - lo + (1 - 1)) / 1 = ((hi - lo).toNat : ℤ) := by omega
  unfold countUp
  rw [hlen, hlen', Int.toNat_natCast, Int.toNat_natCast, range_succ, map_append, map_singleton]
  congr 2
  omega

/-- Later values are larger by a step at least. -/
theorem countUp_pairwise (hd : 0 < d) : (countUp lo hi d).Pairwise (· + d ≤ ·) := by
  refine pairwise_lt_range.map _ fun a b hab => ?_
  have hmul : ((a : ℤ) + 1) * d ≤ b * d := mul_le_mul_of_nonneg_right (by omega) hd.le
  linarith

theorem nodup_countUp (hd : 0 < d) : (countUp lo hi d).Nodup :=
  (countUp_pairwise hd).imp fun h => by omega

/-- A loop whose rounds add to a number adds the sum of what they add. -/
theorem foldl_add {α M : Type*} [AddMonoid M] {f : σ → α → σ} {g : σ → M} {δ : α → M} {l : List α}
    (h : ∀ s, ∀ a ∈ l, g (f s a) = g s + δ a) (s : σ) : g (l.foldl f s) = g s + (l.map δ).sum := by
  induction l generalizing s with
  | nil => simp
  | cons a l ih =>
    obtain ⟨ha, hl⟩ := forall_and.1 fun s => forall_mem_cons.1 (h s)
    rw [foldl_cons, ih hl, ha, map_cons, sum_cons, add_assoc]

end Bongos
