import Bongos.Buffer
import Mathlib.Data.Nat.Bitwise

/-!
# Strings of bits

The `n` lowest bits of a number as a list, the lowest first (`lsbBits`) or the highest first
(`msbBits`), and bytes as strings of bits. Each string of a length belongs to one number below a
power of two.
-/

namespace Bongos

open List

/-- The `n` lowest bits of `v`, the lowest first. -/
def lsbBits : ℕ → ℕ → List Bool
  | 0, _ => []
  | n + 1, v => v.testBit 0 :: lsbBits n (v / 2)

/-- The `n` lowest bits of `v`, the highest first. -/
def msbBits : ℕ → ℕ → List Bool
  | 0, _ => []
  | n + 1, v => v.testBit n :: msbBits n v

/-- The bits of some bytes, from the lowest of the first on. -/
def byteBits (bs : List Byte) : List Bool := bs.flatMap fun b => lsbBits 8 b.toNat

variable {n m v v' k : ℕ} {bs cs : List Byte}

@[simp]
theorem length_lsbBits (n v : ℕ) : (lsbBits n v).length = n := by
  induction n generalizing v with
  | zero => rfl
  | succ n ih => rw [lsbBits, length_cons, ih]

@[simp]
theorem length_msbBits : (msbBits n v).length = n := by
  induction n with
  | zero => rfl
  | succ n ih => rw [msbBits, length_cons, ih]

theorem testBit_zero_toNat : (v.testBit 0).toNat = v % 2 := by
  rcases Nat.mod_two_eq_zero_or_one v with h | h <;> simp [h]

/-- A number with one bit more. -/
theorem lsbBits_succ_eq (b : Bool) (h : v' = b.toNat + 2 * v) :
    lsbBits (n + 1) v' = b :: lsbBits n v := by
  have hdiv : v' / 2 = v := by
    have hb := Bool.toNat_lt b
    omega
  have hbit : v'.testBit 0 = b := by
    cases b <;> cases h' : v'.testBit 0 <;> simp_all
  rw [lsbBits, hdiv, hbit]

/-- Every string is that of a number. -/
theorem exists_lsbBits (w : List Bool) : ∃ v < 2^w.length, lsbBits w.length v = w := by
  induction w with
  | nil => exact ⟨0, by simp, rfl⟩
  | cons b w ih =>
    obtain ⟨v, hv, hw⟩ := ih
    have hb := Bool.toNat_lt b
    refine ⟨b.toNat + 2 * v, ?_, ?_⟩
    · rw [length_cons, pow_succ]
      omega
    · rw [length_cons, lsbBits_succ_eq b rfl, hw]

/-- The strings of two numbers differ. -/
theorem lsbBits_inj (hv : v < 2^n) (hv' : v' < 2^n) (h : lsbBits n v = lsbBits n v') : v = v' := by
  induction n generalizing v v' with
  | zero =>
    omega
  | succ n ih =>
    obtain ⟨hbit, htail⟩ := List.cons.inj h
    have hdiv := ih (by omega) (by omega) htail
    have hmod : v % 2 = v' % 2 := by rw [← testBit_zero_toNat, ← testBit_zero_toNat, hbit]
    omega

/-- The strings of two halves, put together. -/
theorem lsbBits_append (n m v : ℕ) : lsbBits (n + m) v = lsbBits n v ++ lsbBits m (v / 2^n) := by
  induction n generalizing v with
  | zero => simp [lsbBits]
  | succ n ih =>
    rw [Nat.add_right_comm, lsbBits, ih, lsbBits, cons_append, Nat.div_div_eq_div_mul, pow_succ,
      mul_comm 2]

theorem lsbBits_mod (n v : ℕ) : lsbBits n (v % 2^n) = lsbBits n v := by
  induction n generalizing v with
  | zero => rfl
  | succ n ih =>
    have hbit : (v % 2^(n + 1)).testBit 0 = v.testBit 0 := by
      simp
    have hdiv : v % 2^(n + 1) / 2 = v / 2 % 2^n := by
      rw [pow_succ, mul_comm, Nat.mod_mul_right_div_self]
    rw [lsbBits, hbit, hdiv, ih, lsbBits]

/-! ## Bytes -/

@[simp]
theorem byteBits_cons (b : Byte) (bs : List Byte) :
    byteBits (b :: bs) = lsbBits 8 b.toNat ++ byteBits bs := rfl

@[simp]
theorem byteBits_append (bs cs : List Byte) : byteBits (bs ++ cs) = byteBits bs ++ byteBits cs :=
  flatMap_append

@[simp]
theorem length_byteBits (bs : List Byte) : (byteBits bs).length = 8 * bs.length := by
  induction bs with
  | nil => rfl
  | cons b bs ih =>
    rw [byteBits_cons, length_append, length_lsbBits, ih, length_cons]
    omega

/-- The bits of the bytes of a little-endian number are those of the number. -/
theorem byteBits_leBytes : byteBits (leBytes n v) = lsbBits (8 * n) v := by
  induction n generalizing v with
  | zero => rfl
  | succ n ih =>
    have hbyte : lsbBits 8 (BitVec.ofNat 8 v).toNat = lsbBits 8 v := by
      exact lsbBits_mod 8 v
    rw [leBytes, byteBits_cons, ih, hbyte, Nat.mul_succ, Nat.add_comm, lsbBits_append]
    rfl

theorem leBytes_leNat (bs : List Byte) : leBytes bs.length (leNat bs) = bs := by
  refine leNat_inj (length_leBytes _ _) ?_
  rw [leNat_leBytes, Nat.mod_eq_of_lt (leNat_lt bs)]

/-- The bits of some bytes are those of the number that they make up. -/
theorem byteBits_eq_lsbBits (bs : List Byte) :
    byteBits bs = lsbBits (8 * bs.length) (leNat bs) := by
  rw [← byteBits_leBytes, leBytes_leNat]

/-- The first two bytes are a number of 16 bits. -/
theorem byteBits_two {bs : List Byte} (h : 2 ≤ bs.length) : leNat (bs.take 2) < 65536 ∧
    byteBits bs = lsbBits 16 (leNat (bs.take 2)) ++ byteBits (bs.drop 2) := by
  have hlen : (bs.take 2).length = 2 := length_take_of_le h
  have hlt := leNat_lt (bs.take 2)
  have hsplit := byteBits_eq_lsbBits (bs.take 2)
  rw [hlen] at hlt hsplit
  refine ⟨hlt, ?_⟩
  rw [← hsplit, ← byteBits_append, take_append_drop]

/-- Bytes are told apart by their bits. -/
theorem byteBits_inj (h : byteBits bs = byteBits cs) : bs = cs := by
  induction bs generalizing cs with
  | nil =>
    have hlen := congrArg List.length h
    rw [length_byteBits, length_byteBits, length_nil] at hlen
    exact (length_eq_zero_iff.1 (by omega)).symm
  | cons b bs ih =>
    cases cs with
    | nil =>
      have hlen := congrArg List.length h
      rw [length_byteBits, length_byteBits, length_cons, length_nil] at hlen
      omega
    | cons c cs =>
      obtain ⟨hbyte, htail⟩ := append_inj h (by simp)
      rw [BitVec.eq_of_toNat_eq (lsbBits_inj b.isLt c.isLt hbyte), ih htail]

/-- Every string of whole bytes is that of some bytes. -/
theorem exists_byteBits {w : List Bool} {k : ℕ} (h : w.length = 8 * k) : ∃ bs : List Byte,
    bs.length = k ∧ byteBits bs = w := by
  induction k generalizing w with
  | zero => exact ⟨[], rfl, (length_eq_zero_iff.1 h).symm⟩
  | succ k ih =>
    obtain ⟨bs, hlen, hbits⟩ := ih (w := w.drop 8) (by rw [length_drop]; omega)
    obtain ⟨v, hv, hfirst⟩ := exists_lsbBits (w.take 8)
    have htake : (w.take 8).length = 8 := by
      rw [length_take]
      omega
    rw [htake] at hv hfirst
    refine ⟨BitVec.ofNat 8 v :: bs, by rw [length_cons, hlen], ?_⟩
    rw [byteBits_cons, BitVec.toNat_ofNat, Nat.mod_eq_of_lt hv, hfirst, hbits, take_append_drop]

/-! ## Highest bit first -/

/-- The bit after the highest ones, as a number. -/
theorem div_two_pow_testBit (v n : ℕ) : v / 2^n = (v.testBit n).toNat + 2 * (v / 2^(n + 1)) := by
  have hbit : (v.testBit n).toNat = v / 2^n % 2 := by
    rw [Nat.testBit_eq_decide_div_mod_eq]
    rcases Nat.mod_two_eq_zero_or_one (v / 2^n) with h | h <;> simp [h]
  rw [hbit, pow_succ, ← Nat.div_div_eq_div_mul]
  omega

theorem testBit_eq_of_div {b : Bool} {c : ℕ} (h : v / 2^n = b.toNat + 2 * c) :
    v.testBit n = b ∧ v / 2^(n + 1) = c := by
  have hbit := div_two_pow_testBit v n
  rw [h] at hbit
  cases b <;> cases hv : v.testBit n <;> rw [hv] at hbit <;>
    simp only [Bool.toNat_true, Bool.toNat_false] at hbit <;> first | omega | exact ⟨rfl, by omega⟩

end Bongos
