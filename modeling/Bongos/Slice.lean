import Mathlib.Data.List.Basic
import Mathlib.Data.List.GetD

/-!
# Bytes and slices

`SliceAt xs off ys` says that `ys` stands in `xs` at position `off`. A format is a list of slices; a
reader that takes what stands at a position gets what the writer put there. A slice of several parts
is a slice of each of them, and slices of slices are slices.
-/

namespace Bongos

open List

/-- `uint8_t`. -/
abbrev Byte := BitVec 8

variable {α : Type*} {xs ys zs : List α} {x y : α} {off : ℕ}

/-- `ys` stands in `xs` at `off`. -/
def SliceAt (xs : List α) (off : ℕ) (ys : List α) : Prop :=
  ∃ pre post, xs = pre ++ (ys ++ post) ∧ pre.length = off

namespace SliceAt

theorem left (h : SliceAt xs off (ys ++ zs)) : SliceAt xs off ys := by
  obtain ⟨pre, post, rfl, hoff⟩ := h
  exact ⟨pre, zs ++ post, by rw [append_assoc], hoff⟩

theorem right (h : SliceAt xs off (ys ++ zs)) : SliceAt xs (off + ys.length) zs := by
  obtain ⟨pre, post, rfl, rfl⟩ := h
  exact ⟨pre ++ ys, post, by simp only [append_assoc], length_append⟩

theorem tail (h : SliceAt xs off (y :: ys)) : SliceAt xs (off + 1) ys := by
  have hsplit : SliceAt xs off ([y] ++ ys) := h
  exact hsplit.right

theorem head (h : SliceAt xs off (y :: ys)) : xs[off]? = some y := by
  obtain ⟨pre, post, rfl, rfl⟩ := h
  simp

theorem le (h : SliceAt xs off ys) : off + ys.length ≤ xs.length := by
  obtain ⟨pre, post, rfl, rfl⟩ := h
  simp only [length_append]
  omega

theorem trans {off' : ℕ} (h : SliceAt xs off ys) (h' : SliceAt ys off' zs) :
    SliceAt xs (off + off') zs := by
  obtain ⟨pre, post, rfl, rfl⟩ := h
  obtain ⟨pre', post', rfl, rfl⟩ := h'
  exact ⟨pre ++ pre', post' ++ post, by simp only [append_assoc], length_append⟩

/-- What stands in front is not moved by what is added at the end. -/
theorem append (h : SliceAt xs off ys) (zs : List α) : SliceAt (xs ++ zs) off ys := by
  obtain ⟨pre, post, rfl, hoff⟩ := h
  exact ⟨pre, post ++ zs, by simp only [append_assoc], hoff⟩

theorem of_eq (h : xs = ys) : SliceAt xs 0 ys := ⟨[], [], by simp [h], rfl⟩

end SliceAt

/-- The part of a concatenation that belongs to one index. -/
theorem sliceAt_flatMap_range (f : ℕ → List α) {n i : ℕ} (hi : i < n) :
    SliceAt ((List.range n).flatMap f) ((List.range i).flatMap f).length (f i) := by
  obtain ⟨k, rfl⟩ : ∃ k, n = i + 1 + k := ⟨n - (i + 1), by omega⟩
  refine ⟨(List.range i).flatMap f, ((List.range k).map (i + 1 + ·)).flatMap f, ?_, rfl⟩
  rw [range_add, range_succ]
  simp only [flatMap_append, flatMap_singleton, append_assoc]

end Bongos
