import Bongos.BitString
import Mathlib.Algebra.BigOperators.Group.Finset.Basic

/-!
# Canonical prefix codes

A code is given by the lengths of its codewords, where the length 0 is that of a symbol without a
codeword. The codewords of a length are consecutive numbers, in the order of the symbols, and the
first one of a length follows the last one of the length before it (`firstCode`). The code is not
over-subscribed if every length has room for its codewords.

A codeword is found bit by bit: the bits read so far are a whole codeword exactly if they are among
the numbers of their length (`below_codes`, `codeword_take`).
-/

namespace Bongos

open List

variable {lens : List ℕ} {l j r i : ℕ}

variable (lens)

/-- How many symbols have codewords of the length `l`. -/
def codeCount (l : ℕ) : ℕ := if l = 0 then 0 else lens.count l

/-- The first codeword of the length `l`, as a number. -/
def firstCode : ℕ → ℕ
  | 0 => 0
  | l + 1 => 2 * (firstCode l + codeCount lens l)

/-- How many symbols have shorter codewords. -/
def firstIndex (l : ℕ) : ℕ := ∑ j ∈ Finset.range l, codeCount lens j

/-- How many symbols before `i` have codewords of the same length. -/
def codeRank (i : ℕ) : ℕ := (lens.take i).count (lens.getD i 0)

/-- The symbol has a codeword. -/
def HasCode (i : ℕ) : Prop := i < lens.length ∧ lens.getD i 0 ≠ 0

instance (i : ℕ) : Decidable (HasCode lens i) := inferInstanceAs (Decidable (_ ∧ _))

/-- The codeword of a symbol, as a number. -/
def codeOf (i : ℕ) : ℕ := firstCode lens (lens.getD i 0) + codeRank lens i

/-- The codeword of a symbol, the highest bit first. -/
def codeword (i : ℕ) : List Bool := msbBits (lens.getD i 0) (codeOf lens i)

/-- No length up to `n` has more codewords than there is room for. -/
def NotOver (n : ℕ) : Prop := ∀ l ≤ n, firstCode lens l + codeCount lens l ≤ 2^l

theorem firstCode_succ (l : ℕ) :
    firstCode lens (l + 1) = 2 * (firstCode lens l + codeCount lens l) := rfl

theorem firstIndex_succ (l : ℕ) :
    firstIndex lens (l + 1) = firstIndex lens l + codeCount lens l := Finset.sum_range_succ ..

theorem firstIndex_mono : Monotone (firstIndex lens) :=
  monotone_nat_of_le_succ fun l => by
    rw [firstIndex_succ]
    exact Nat.le_add_right _ _

variable {lens}

/-! ## Symbols by length and rank -/

/-- A list around one of its elements. -/
theorem take_append_getD_drop (h : i < lens.length) :
    lens.take i ++ lens.getD i 0 :: lens.drop (i + 1) = lens := by
  have hget : lens.getD i 0 = lens[i] := getD_eq_getElem _ _ h
  rw [hget, getElem_cons_drop, take_append_drop]

/-- A symbol's rank is below the number of symbols of its length. -/
theorem HasCode.codeRank_lt (h : HasCode lens i) :
    codeRank lens i < codeCount lens (lens.getD i 0) := by
  have hcount : lens.count (lens.getD i 0) = codeRank lens i +
      ((lens.drop (i + 1)).count (lens.getD i 0) + 1) := by
    rw [codeRank, ← count_cons_self, ← count_append, take_append_getD_drop h.1]
  rw [codeCount, if_neg h.2, hcount]
  omega

/-- Every rank below the number of symbols of a length is that of a symbol. -/
theorem exists_codeRank (hl : l ≠ 0) (hr : r < codeCount lens l) :
    ∃ i, HasCode lens i ∧ lens.getD i 0 = l ∧ codeRank lens i = r := by
  rw [codeCount, if_neg hl] at hr
  suffices hfind : ∃ i, i < lens.length ∧ lens.getD i 0 = l ∧ (lens.take i).count l = r by
    obtain ⟨i, hi, hlen, hcount⟩ := hfind
    exact ⟨i, ⟨hi, hlen ▸ hl⟩, hlen, by rw [codeRank, hlen, hcount]⟩
  -- The induction passes over the symbols of other lengths, and counts those of this one.
  induction lens generalizing r with
  | nil => exact absurd hr (Nat.not_lt_zero r)
  | cons a lens ih =>
    by_cases ha : a = l
    · cases r with
      | zero => exact ⟨0, by simp, by simpa using ha, by simp⟩
      | succ r =>
        rw [ha, count_cons_self] at hr
        obtain ⟨i, hi, hlen, hcount⟩ := ih (Nat.lt_of_succ_lt_succ hr)
        exact ⟨i + 1, by simpa using hi, by simpa using hlen, by simp [ha, hcount]⟩
    · rw [count_cons_of_ne ha] at hr
      obtain ⟨i, hi, hlen, hcount⟩ := ih hr
      exact ⟨i + 1, by simpa using hi, by simpa using hlen, by simp [count_cons_of_ne ha, hcount]⟩

/-- Two symbols of one length and rank are the same. -/
theorem HasCode.eq_of_rank (hi : HasCode lens i) (hj : HasCode lens j)
    (hlen : lens.getD i 0 = lens.getD j 0) (hrank : codeRank lens i = codeRank lens j) : i = j := by
  -- A later symbol of the length counts the earlier one.
  have hlt : ∀ {a b : ℕ}, HasCode lens a → HasCode lens b → lens.getD a 0 = lens.getD b 0 → a < b →
      codeRank lens a < codeRank lens b := by
    intro a b ha _ heq hab
    have hget : (lens.take b).getD a 0 = lens.getD a 0 := by
      rw [getD_eq_getElem?_getD, getElem?_take_of_lt hab, getD_eq_getElem?_getD]
    have hsplit : lens.take a ++ lens.getD a 0 :: (lens.take b).drop (a + 1) = lens.take b := by
      have htake : (lens.take b).take a = lens.take a := by rw [take_take, Nat.min_eq_left hab.le]
      rw [← htake, ← hget]
      refine take_append_getD_drop ?_
      rw [length_take]
      exact lt_min hab ha.1
    rw [codeRank, codeRank, ← heq, ← hsplit, count_append, count_cons_self]
    omega
  rcases Nat.lt_trichotomy i j with h | h | h
  · exact absurd hrank (hlt hi hj hlen h).ne
  · exact h
  · exact absurd hrank (hlt hj hi hlen.symm h).ne'

/-! ## Codewords by their prefixes -/

/-- The codewords of a length come after those that start with shorter ones. -/
theorem firstCode_le (h : j < l) :
    2^(l - j) * (firstCode lens j + codeCount lens j) ≤ firstCode lens l := by
  obtain ⟨k, rfl⟩ := Nat.exists_eq_add_of_lt h
  induction k with
  | zero =>
    rw [Nat.add_zero, Nat.add_sub_cancel_left, pow_one, firstCode_succ]
  | succ k ih =>
    have hexp : j + (k + 1) + 1 - j = (j + k + 1 - j) + 1 := by omega
    calc 2^(j + (k + 1) + 1 - j) * (firstCode lens j + codeCount lens j)
        = 2 * (2^(j + k + 1 - j) * (firstCode lens j + codeCount lens j)) := by
          rw [hexp, pow_succ]
          ring
      _ ≤ 2 * firstCode lens (j + k + 1) := Nat.mul_le_mul_left 2 (ih (by omega))
      _ ≤ firstCode lens (j + (k + 1) + 1) := by
          exact Nat.mul_le_mul_left 2 (Nat.le_add_right _ _)

variable {n : ℕ}

theorem HasCode.codeOf_lt (h : HasCode lens i) (hn : lens.getD i 0 ≤ n) (hover : NotOver lens n) :
    codeOf lens i < 2^(lens.getD i 0) := by
  have hrank := h.codeRank_lt
  have hroom := hover _ hn
  rw [codeOf]
  omega

/-- The first bits of a codeword are not among the codewords of their length. -/
theorem firstCode_le_codeOf_div (hj : j < lens.getD i 0) :
    firstCode lens j + codeCount lens j ≤ codeOf lens i / 2^(lens.getD i 0 - j) := by
  rw [Nat.le_div_iff_mul_le (Nat.two_pow_pos _), mul_comm]
  exact (firstCode_le hj).trans (Nat.le_add_right _ _)

/-! ## Complete codes -/

/-- The code uses all of the room that codewords of at most `n` bits have. -/
def Complete (lens : List ℕ) (n : ℕ) : Prop :=
  (lens.map fun l => if l = 0 then 0 else 2^(n - l)).sum = 2^n

instance (lens : List ℕ) (n : ℕ) : Decidable (Complete lens n) :=
  inferInstanceAs (Decidable (_ = _))

theorem firstCode_nil : firstCode [] l = 0 := by
  induction l with
  | zero => rfl
  | succ l ih => rw [firstCode_succ, ih, codeCount, count_nil, ite_self]

/-- One more symbol takes the room of its codeword. -/
theorem firstCode_cons (a : ℕ) : firstCode (a :: lens) n + codeCount (a :: lens) n =
      (if a ≠ 0 ∧ a ≤ n then 2^(n - a) else 0) + (firstCode lens n + codeCount lens n) := by
  induction n with
  | zero =>
    simp [firstCode, codeCount]
  | succ n ih =>
    rw [firstCode_succ, ih, firstCode_succ]
    have hcount : codeCount (a :: lens) (n + 1) =
        codeCount lens (n + 1) + if a = n + 1 then 1 else 0 := by
      unfold codeCount
      rw [if_neg n.succ_ne_zero, if_neg n.succ_ne_zero, count_cons]
      simp
    rw [hcount]
    rcases Nat.lt_trichotomy a (n + 1) with ha | ha | ha
    · have hpow : 2^(n + 1 - a) = 2 * 2^(n - a) := by
        rw [Nat.succ_sub (Nat.le_of_lt_succ ha), pow_succ, mul_comm]
      split_ifs <;> omega
    · rw [if_pos ha, if_neg (by omega), if_pos (by omega), ha, Nat.sub_self, pow_zero]
      omega
    · rw [if_neg ha.ne', if_neg (by omega), if_neg (by omega)]
      omega

/-- The room that the codewords take. -/
theorem sum_room (h : ∀ l ∈ lens, l ≤ n) :
    (lens.map fun l => if l = 0 then 0 else 2^(n - l)).sum =
      firstCode lens n + codeCount lens n := by
  induction lens with
  | nil =>
    rw [firstCode_nil, codeCount, count_nil, ite_self]
    rfl
  | cons a lens ih =>
    obtain ⟨ha, hlens⟩ := forall_mem_cons.1 h
    rw [map_cons, sum_cons, ih hlens, firstCode_cons]
    split_ifs <;> first | rfl | omega

theorem complete_iff (h : ∀ l ∈ lens, l ≤ n) :
    Complete lens n ↔ firstCode lens n + codeCount lens n = 2^n := by
  rw [Complete, sum_room h]

/-- It is enough that the longest codewords have room. -/
theorem notOver_of_le (h : firstCode lens n + codeCount lens n ≤ 2^n) : NotOver lens n := by
  intro l hl
  rcases Nat.lt_or_eq_of_le hl with hlt | rfl
  · have hroom : 2^(n - l) * (firstCode lens l + codeCount lens l) ≤ 2^(n - l) * 2^l := by
      rw [← pow_add, Nat.sub_add_cancel hl]
      exact (firstCode_le hlt).trans ((Nat.le_add_right _ _).trans h)
    exact Nat.le_of_mul_le_mul_left hroom (Nat.two_pow_pos _)
  · exact h

end Bongos
