import Bongos.FallibleLoop
import Bongos.Slice
import Mathlib.Tactic.Ring

/-!
# Buffers of bytes

Little-endian numbers as lists of bytes, and loads from and stores to a buffer. An access outside a
buffer is a fault, which is told apart from the error codes that a program returns: a program that
never faults never leaves its buffers.
-/

namespace Bongos

open List

/-! ## Little-endian numbers -/

/-- The number that the bytes hold, the lowest byte first. -/
def leNat : List Byte → ℕ
  | [] => 0
  | b :: bs => b.toNat + 256 * leNat bs

/-- The `n` lowest bytes of `v`, the lowest first. -/
def leBytes : ℕ → ℕ → List Byte
  | 0, _ => []
  | n + 1, v => BitVec.ofNat 8 v :: leBytes n (v / 256)

@[simp]
theorem length_leBytes (n v : ℕ) : (leBytes n v).length = n := by
  induction n generalizing v with
  | zero => rfl
  | succ n ih => simp [leBytes, ih]

theorem leNat_lt (bs : List Byte) : leNat bs < 256 ^ bs.length := by
  induction bs with
  | nil => exact Nat.one_pos
  | cons b bs ih =>
    have hpow : 256 ^ (b :: bs).length = 256 * 256 ^ bs.length := by
      rw [length_cons, pow_succ, mul_comm]
    rw [hpow, leNat]
    omega

theorem leNat_leBytes (n v : ℕ) : leNat (leBytes n v) = v % 256 ^ n := by
  induction n generalizing v with
  | zero => simp [leBytes, leNat, Nat.mod_one]
  | succ n ih =>
    calc leNat (leBytes (n + 1) v) = v % 256 + 256 * (v / 256 % 256 ^ n) := by
          rw [leBytes, leNat, ih, BitVec.toNat_ofNat]
      _ = v % (256 * 256 ^ n) := (Nat.mod_mul).symm
      _ = v % 256 ^ (n + 1) := by rw [pow_succ, mul_comm]

/-- Bytes of one length are told apart by their number. -/
theorem leNat_inj {bs cs : List Byte} (hlen : bs.length = cs.length) (h : leNat bs = leNat cs) :
    bs = cs := by
  induction bs generalizing cs with
  | nil => exact (length_eq_zero_iff.1 hlen.symm).symm
  | cons b bs ih =>
    cases cs with
    | nil => exact absurd hlen (by simp)
    | cons c cs =>
      rw [leNat, leNat] at h
      have hbc : b = c := BitVec.eq_of_toNat_eq (by omega)
      have htail : leNat bs = leNat cs := by
        omega
      rw [hbc, ih (by simpa using hlen) htail]

/-! ## Loads and stores -/

/-- How a call on buffers ends early: with an error code, or by leaving a buffer. -/
inductive Failure (ε : Type) where
  | status (e : ε)
  | fault
  deriving DecidableEq

section Access

variable {ε : Type} {buf bs : List Byte} {off n : ℕ}

/-- The `n` bytes of the buffer from `off`. -/
def load (ε : Type) (buf : List Byte) (off n : ℕ) : Except (Failure ε) (List Byte) :=
  if off + n ≤ buf.length then .ok ((buf.drop off).take n) else .error .fault

/-- The buffer after the bytes have been written to it from `off`. -/
def store (ε : Type) (buf : List Byte) (off : ℕ) (bs : List Byte) :
    Except (Failure ε) (List Byte) :=
  if off + bs.length ≤ buf.length then
    .ok (buf.take off ++ (bs ++ buf.drop (off + bs.length)))
  else .error .fault

/-- The check of a C function that returns an error code. -/
def rejectIf (c : Prop) [Decidable c] (e : ε) : Except (Failure ε) Unit :=
  if c then .error (.status e) else .ok ()

theorem rejectIf_eq_ok {c : Prop} [Decidable c] {e : ε} {u : Unit} :
    rejectIf c e = .ok u ↔ ¬ c := by
  by_cases h : c <;> simp [rejectIf, h]

theorem load_eq_ok : load ε buf off n = .ok bs ↔
    off + n ≤ buf.length ∧ bs = (buf.drop off).take n := by
  by_cases h : off + n ≤ buf.length <;> simp [load, h, eq_comm]

variable {buf' : List Byte} {i : ℕ}

theorem store_eq_ok : store ε buf off bs = .ok buf' ↔
    off + bs.length ≤ buf.length ∧ buf' = buf.take off ++ (bs ++ buf.drop (off + bs.length)) := by
  by_cases h : off + bs.length ≤ buf.length <;> simp [store, h, eq_comm]

theorem length_of_load (h : load ε buf off n = .ok bs) : bs.length = n := by
  obtain ⟨hle, rfl⟩ := load_eq_ok.1 h
  rw [length_take, length_drop]
  omega

theorem length_of_store (h : store ε buf off bs = .ok buf') : buf'.length = buf.length := by
  obtain ⟨hle, rfl⟩ := store_eq_ok.1 h
  simp only [length_append, length_take, length_drop]
  omega

/-- What a load returns is what stands in the buffer. -/
theorem getElem?_of_load (h : load ε buf off n = .ok bs) (hi : i < n) : bs[i]? = buf[off + i]? := by
  obtain ⟨-, rfl⟩ := load_eq_ok.1 h
  rw [getElem?_take_of_lt hi, getElem?_drop]

/-- What a store has written stands there. -/
theorem getElem?_store_inside (h : store ε buf off bs = .ok buf')
    (hi : i < bs.length) : buf'[off + i]? = bs[i]? := by
  obtain ⟨hle, rfl⟩ := store_eq_ok.1 h
  have htake : (buf.take off).length = off := by
    rw [length_take]
    omega
  rw [getElem?_append_right (by omega), htake, Nat.add_sub_cancel_left, getElem?_append_left hi]

/-- A store changes nothing else. -/
theorem getElem?_store_outside (h : store ε buf off bs = .ok buf')
    (hi : i < off ∨ off + bs.length ≤ i) : buf'[i]? = buf[i]? := by
  obtain ⟨hle, rfl⟩ := store_eq_ok.1 h
  have htake : (buf.take off).length = off := by
    rw [length_take]
    omega
  rcases hi with hi | hi
  · rw [getElem?_append_left (by omega), getElem?_take_of_lt hi]
  · rw [getElem?_append_right (by omega), getElem?_append_right (by omega), htake,
      getElem?_drop]
    congr 1
    omega

/-! ## Computations that stay inside their buffers -/

universe u

variable {α : Type u}

theorem outcome_rejectIf (c : Prop) [Decidable c] (e : ε) :
    FallibleLoop.Outcome (· ≠ .fault) (fun _ => ¬ c) (rejectIf c e) := by
  unfold rejectIf
  split
  · exact nofun
  · assumption

theorem outcome_load (h : off + n ≤ buf.length) :
    FallibleLoop.Outcome (· ≠ .fault) (fun bs => bs = (buf.drop off).take n)
      (load ε buf off n) := by
  rw [load, if_pos h]
  rfl

theorem outcome_store (h : off + bs.length ≤ buf.length) :
    FallibleLoop.Outcome (· ≠ .fault) (· = buf.take off ++ (bs ++ buf.drop (off + bs.length)))
      (store ε buf off bs) := by
  rw [store, if_pos h]
  rfl

end Access

end Bongos
