import Mathlib.Algebra.GroupWithZero.Divisibility
import Mathlib.Data.Nat.Bitwise

/-!
# Bits of machine words

What a bitwise and with a mask computes: with a mask of high bits, rounding down to a multiple of a
power of two; with a mask that covers every bit, nothing. The loop that takes the set bits of a word
from the lowest up, and sets of small numbers as arrays of words.
-/

namespace Bongos

open BitVec

variable {w k x n b : ℕ}

/-- The bits of `2^w - 2^k` are those from `k` up to `w`. -/
theorem testBit_two_pow_sub {i : ℕ} (h : k ≤ w) :
    (2^w - 2^k).testBit i = (decide (k ≤ i) && decide (i < w)) := by
  have hshift : 2^w - 2^k = (2^(w - k) - 1) <<< k := by
    rw [Nat.shiftLeft_eq, Nat.sub_mul, ← pow_add, Nat.sub_add_cancel h, Nat.one_mul]
  rw [hshift, Nat.testBit_shiftLeft, Nat.testBit_two_pow_sub_one]
  by_cases hi : k ≤ i
  · simp only [ge_iff_le, hi, decide_true, Bool.true_and]
    congr 1
    simp only [eq_iff_iff]
    omega
  · simp [hi]

/-- A `w`-bit number masked with the bits from `k` up is rounded down to a multiple of `2^k`. -/
theorem land_two_pow_sub (h : k ≤ w) (hx : x < 2^w) : x &&& (2^w - 2^k) = x / 2^k * 2^k := by
  refine Nat.eq_of_testBit_eq fun i => ?_
  rw [Nat.testBit_and, testBit_two_pow_sub h, ← Nat.shiftRight_eq_div_pow, ← Nat.shiftLeft_eq,
    Nat.testBit_shiftLeft, Nat.testBit_shiftRight]
  by_cases hi : k ≤ i
  · simp only [ge_iff_le, hi, decide_true, Bool.true_and, Nat.add_sub_cancel' hi]
    by_cases hw : i < w
    · simp [hw]
    · rw [Nat.testBit_lt_two_pow (hx.trans_le (Nat.pow_le_pow_right (by decide) (by omega)))]
      simp
  · simp [hi]

/-- A `w`-bit multiple of `2^k` is unchanged by the mask. -/
theorem land_two_pow_sub_of_dvd (h : k ≤ w) (hx : x < 2^w) (hdvd : 2^k ∣ x) :
    x &&& (2^w - 2^k) = x := by
  rw [land_two_pow_sub h hx, Nat.div_mul_cancel hdvd]

/-- A vector without bits outside a mask is unchanged by the mask. -/
theorem and_eq_of_and_not_eq_zero {x y : BitVec w} (h : x &&& ~~~y = 0#w) : x &&& y = x := by
  ext i hi
  have hbit := congrArg (fun v : BitVec w => v[i]) h
  simp only [getElem_and, getElem_not, getElem_zero] at hbit ⊢
  cases hx : x[i] <;> cases hy : y[i] <;> simp_all

/-! ## The lowest set bit -/

/-- `__builtin_ctzll`: the number of trailing zero bits of a positive number. -/
def ctz (n : ℕ) : ℕ :=
  if n = 0 then 0 else if n % 2 = 1 then 0 else ctz (n / 2) + 1
termination_by n

/-- `ctz` gives a power of two that divides. -/
theorem two_pow_ctz_dvd : 2^ctz n ∣ n := by
  fun_induction ctz n with
  | case1 => exact dvd_zero _
  | case2 n => exact one_dvd _
  | case3 n h0 hodd ih =>
    have hn : n / 2 * 2 = n := by omega
    calc 2^(ctz (n / 2) + 1) = 2^ctz (n / 2) * 2 := pow_succ 2 _
      _ ∣ n / 2 * 2 := Nat.mul_dvd_mul_right ih 2
      _ = n := hn

/-- The lowest set bit is set. -/
theorem testBit_ctz (h : n ≠ 0) : n.testBit (ctz n) = true := by
  fun_induction ctz n with
  | case1 => exact absurd rfl h
  | case2 n h0 hodd => simpa using hodd
  | case3 n h0 hodd ih => rw [Nat.testBit_succ]; exact ih (by omega)

/-- The idiom `n &= n - 1` clears the lowest set bit. -/
theorem testBit_and_pred (h : n ≠ 0) (i : ℕ) :
    (n &&& (n - 1)).testBit i = (n.testBit i && i != ctz n) := by
  rw [Nat.testBit_and]
  fun_induction ctz n generalizing i with
  | case1 => exact absurd rfl h
  | case2 n h0 hodd =>
    -- `n - 1` differs from the odd `n` in the lowest bit only.
    cases i with
    | zero =>
      have : (n - 1) % 2 = 0 := by omega
      simp [this]
    | succ i =>
      have : (n - 1) / 2 = n / 2 := by omega
      simp [Nat.testBit_succ, this]
  | case3 n h0 hodd ih =>
    cases i with
    | zero => simp [show n % 2 = 0 by omega]
    | succ i =>
      have : (n - 1) / 2 = n / 2 - 1 := by omega
      rw [Nat.testBit_succ, Nat.testBit_succ, this, ih (by omega)]
      simp

/-- The set bits of a word in the order in which the loop `b = ctz(n); n &= n - 1` takes them. -/
def setBits (n : ℕ) : List ℕ :=
  if h : n = 0 then [] else ctz n :: setBits (n &&& (n - 1))
termination_by n
decreasing_by
  have := @Nat.and_le_right n (n - 1)
  omega

theorem mem_setBits : b ∈ setBits n ↔ n.testBit b = true := by
  fun_induction setBits n with
  | case1 => simp
  | case2 n h ih =>
    rw [List.mem_cons, ih, testBit_and_pred h]
    by_cases hb : b = ctz n
    · subst hb; simp [testBit_ctz h]
    · simp [hb]

theorem nodup_setBits : (setBits n).Nodup := by
  fun_induction setBits n with
  | case1 => exact List.nodup_nil
  | case2 n h ih =>
    refine List.nodup_cons.2 ⟨fun hmem => ?_, ih⟩
    rw [mem_setBits, testBit_and_pred h] at hmem
    simp at hmem

/-! ## Arrays of words as sets -/

variable (words : ℕ → BitVec 64)

/-- Sets bit `b` of word `w`. -/
def setBit (w b : ℕ) : ℕ → BitVec 64 :=
  Function.update words w (words w ||| 1#64 <<< b)

/-- The number `i` is in the set: bit `i % 64` of word `i / 64` is set. -/
def bitTest (i : ℕ) : Bool := (words (i / 64)).getLsbD (i % 64)

@[simp]
theorem bitTest_zero (i : ℕ) : bitTest (fun _ => 0#64) i = false := by
  simp [bitTest]

/-- Clears bit `b` of word `w`. -/
def clearBit (w b : ℕ) : ℕ → BitVec 64 :=
  Function.update words w (words w &&& ~~~ (1#64 <<< b))

/-- The bits of a shifted one. -/
theorem getLsbD_one_shiftLeft {j : ℕ} (hj : j < 64) : (1#64 <<< b).getLsbD j = decide (j = b) := by
  rw [Bool.eq_iff_iff]
  simp
  omega

/-- A word has a bit exactly if the and with the shifted one is not zero. -/
theorem and_one_shiftLeft_ne_zero (x : BitVec 64) (hb : b < 64) :
    x &&& 1#64 <<< b ≠ 0 ↔ x.getLsbD b = true := by
  refine ⟨fun hne => ?_, fun hbit h0 => ?_⟩
  · by_contra hbit
    refine hne (eq_of_getLsbD_eq fun j hj => ?_)
    rw [getLsbD_and, getLsbD_one_shiftLeft hj]
    by_cases hjb : j = b
    · simp [hjb, Bool.eq_false_iff.2 hbit]
    · simp [hjb]
  · have hzero : (x &&& 1#64 <<< b).getLsbD b = false := by rw [h0]; exact getLsbD_zero
    rw [getLsbD_and, hbit, getLsbD_one_shiftLeft hb] at hzero
    simp at hzero

theorem bitTest_setBit (hb : b < 64) (i : ℕ) :
    bitTest (setBit words w b) i = (i == w * 64 + b || bitTest words i) := by
  unfold bitTest setBit
  by_cases hw : i / 64 = w
  · subst hw
    rw [Function.update_self, getLsbD_or, Bool.or_comm]
    congr 1
    have hi := Nat.mod_lt i (show 0 < 64 by decide)
    rw [getLsbD_one_shiftLeft hi, Bool.eq_iff_iff]
    simp only [decide_eq_true_eq, beq_iff_eq]
    omega
  · rw [Function.update_of_ne hw]
    have : i ≠ w * 64 + b := by omega
    simp [this]

theorem bitTest_clearBit (hb : b < 64) (i : ℕ) :
    bitTest (clearBit words w b) i = (i != w * 64 + b && bitTest words i) := by
  unfold bitTest clearBit
  by_cases hw : i / 64 = w
  · subst hw
    have hi := Nat.mod_lt i (show 0 < 64 by decide)
    rw [Function.update_self, getLsbD_and, Bool.and_comm, getLsbD_not, getLsbD_one_shiftLeft hi]
    congr 1
    rw [Bool.eq_iff_iff]
    simp only [hi, decide_true, Bool.true_and, Bool.not_eq_true', decide_eq_false_iff_not,
      bne_iff_ne]
    omega
  · rw [Function.update_of_ne hw]
    have : i ≠ w * 64 + b := by omega
    simp [this]

end Bongos
