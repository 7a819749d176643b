import Mathlib.Data.List.Induction
import Mathlib.Data.List.Pairwise
import Mathlib.Data.List.Perm.Subperm
import Mathlib.Order.Interval.Set.Basic
import Mathlib.Order.Nat

/-!
# Tilings of an interval

A list of half-open intervals of numbers tiles an interval when its members are not empty, no two
overlap, and together they cover it. The order of the list does not matter (`Tiling.perm`). A piece
can be split in two (`Tiling.split`), and two pieces that touch can be joined (`Tiling.join`).

Pieces of two kinds tile an interval, and no two of the first kind touch: then there is a piece of
the second kind after each piece of the first but the last, and so there are at most as many of the
first kind as of the second, and one (`Tiling.length_le`).
-/

namespace Bongos

open List

/-- The half-open interval from the first number to the second. -/
abbrev Piece := ℕ × ℕ

/-- Two intervals do not overlap. -/
def Piece.Apart (p q : Piece) : Prop := p.2 ≤ q.1 ∨ q.2 ≤ p.1

/-- The intervals of `P` tile `[a, b)`. -/
structure Tiling (a b : ℕ) (P : List Piece) : Prop where
  nonempty : ∀ p ∈ P, p.1 < p.2
  apart : P.Pairwise Piece.Apart
  cover : ∀ x, (∃ p ∈ P, p.1 ≤ x ∧ x < p.2) ↔ a ≤ x ∧ x < b

/-- The intervals are in order, and there is a gap between any two. -/
def Separated (F : List Piece) : Prop := F.Pairwise fun p q => p.2 < q.1

variable {a b : ℕ} {P Q F R : List Piece} {p q : Piece} {s m t : ℕ}

instance : Std.Symm Piece.Apart := ⟨fun _ _ => Or.symm⟩

/-- Two intervals of a separated family have a gap between them. -/
theorem Separated.gap (h : Separated F) (hp : p ∈ F) (hq : q ∈ F) (hne : p ≠ q) :
    p.2 < q.1 ∨ q.2 < p.1 := by
  have : Std.Symm fun p q : Piece => p.2 < q.1 ∨ q.2 < p.1 := ⟨fun _ _ => Or.symm⟩
  exact (h.imp Or.inl : F.Pairwise fun p q => p.2 < q.1 ∨ q.2 < p.1).forall hp hq hne

namespace Tiling

/-- One interval tiles itself. -/
theorem single (h : a < b) : Tiling a b [(a, b)] :=
  ⟨by simpa using h, pairwise_singleton _ _, by simp⟩

/-- The order of the pieces does not matter. -/
theorem perm (h : Tiling a b P) (hp : P.Perm Q) : Tiling a b Q :=
  ⟨fun p hpQ => h.nonempty p (hp.mem_iff.2 hpQ), (hp.pairwise_iff fun h => Or.symm h).1 h.apart,
    fun x => by simpa only [hp.mem_iff] using h.cover x⟩

/-- The pieces are inside the interval. -/
theorem inside (h : Tiling a b P) (hp : p ∈ P) : a ≤ p.1 ∧ p.2 ≤ b := by
  have hne := h.nonempty p hp
  have h1 := (h.cover p.1).1 ⟨p, hp, le_rfl, hne⟩
  have h2 := (h.cover (p.2 - 1)).1 ⟨p, hp, by omega, by omega⟩
  omega

/-- A piece can be split in two. -/
theorem split (h : Tiling a b ((s, t) :: P)) (h1 : s < m) (h2 : m < t) :
    Tiling a b ((s, m) :: (m, t) :: P) := by
  have happart := pairwise_cons.1 h.apart
  refine ⟨?_, ?_, fun x => ?_⟩
  · intro p hp
    rcases mem_cons.1 hp with rfl | hp
    · exact h1
    rcases mem_cons.1 hp with rfl | hp
    · exact h2
    · exact h.nonempty p (mem_cons_of_mem _ hp)
  · refine pairwise_cons.2 ⟨fun p hp => ?_, pairwise_cons.2 ⟨fun p hp => ?_, happart.2⟩⟩
    · rcases mem_cons.1 hp with rfl | hp
      · exact .inl le_rfl
      · rcases happart.1 p hp with h | h
        · exact .inl (h2.le.trans h)
        · exact .inr h
    · rcases happart.1 p hp with h | h
      · exact .inl h
      · exact .inr (h.trans h1.le)
  · rw [← h.cover x]
    simp only [mem_cons, exists_eq_or_imp]
    constructor
    · rintro (h | h | h)
      · exact .inl ⟨h.1, h.2.trans h2⟩
      · exact .inl ⟨h1.le.trans h.1, h.2⟩
      · exact .inr h
    · rintro (h | h)
      · rcases lt_or_ge x m with hx | hx
        · exact .inl ⟨h.1, hx⟩
        · exact .inr (.inl ⟨hx, h.2⟩)
      · exact .inr (.inr h)

/-- Two pieces that touch can be joined. -/
theorem join (h : Tiling a b ((s, m) :: (m, t) :: P)) : Tiling a b ((s, t) :: P) := by
  have h1 : s < m := h.nonempty (s, m) mem_cons_self
  have h2 : m < t := h.nonempty (m, t) (mem_cons_of_mem _ mem_cons_self)
  obtain ⟨hs, hm, hP⟩ : (∀ p ∈ (m, t) :: P, Piece.Apart (s, m) p) ∧
      (∀ p ∈ P, Piece.Apart (m, t) p) ∧ P.Pairwise Piece.Apart := by
    have := pairwise_cons.1 h.apart
    exact ⟨this.1, pairwise_cons.1 this.2⟩
  refine ⟨?_, pairwise_cons.2 ⟨fun p hp => ?_, hP⟩, fun x => ?_⟩
  · intro p hp
    rcases mem_cons.1 hp with rfl | hp
    · exact h1.trans h2
    · exact h.nonempty p (by simp [hp])
  · have hne := h.nonempty p (by simp [hp])
    -- A piece between the two would contain the point where they touch.
    have hp1 := hs p (mem_cons_of_mem _ hp)
    have hp2 := hm p hp
    simp only [Piece.Apart] at hp1 hp2 ⊢
    omega
  · rw [← h.cover x]
    simp only [mem_cons, exists_eq_or_imp]
    constructor
    · rintro (h | h)
      · rcases lt_or_ge x m with hx | hx
        · exact .inl ⟨h.1, hx⟩
        · exact .inr (.inl ⟨hx, h.2⟩)
      · exact .inr (.inr h)
    · rintro (h | h | h)
      · exact .inl ⟨h.1, h.2.trans h2⟩
      · exact .inl ⟨h1.le.trans h.1, h.2⟩
      · exact .inr h

/-- After a piece of a separated family there is the end of the interval or a piece of the other
family. -/
theorem next_piece (h : Tiling a b (F ++ R)) (hF : Separated F) (hp : p ∈ F) (hb : p.2 ≠ b) :
    ∃ r ∈ R, r.1 = p.2 := by
  have hpne := h.nonempty p (mem_append_left _ hp)
  have hin := h.inside (mem_append_left R hp)
  obtain ⟨r, hr, h1, h2⟩ := (h.cover p.2).2 ⟨by omega, by omega⟩
  have hne : p ≠ r := by
    rintro rfl
    omega
  have hapart : p.Apart r := h.apart.forall (mem_append_left _ hp) hr hne
  have hfst : r.1 = p.2 := by
    unfold Piece.Apart at hapart
    omega
  rcases mem_append.1 hr with hrF | hrR
  · -- A piece of the same family would touch.
    have := hF.gap hp hrF hne
    omega
  · exact ⟨r, hrR, hfst⟩

/-- There are at most as many pieces in a separated family as there are others, and one. -/
theorem length_le (h : Tiling a b (F ++ R)) (hF : Separated F) : F.length ≤ R.length + 1 := by
  rcases F.eq_nil_or_concat' with rfl | ⟨G, q, rfl⟩
  · simp
  have hsep := pairwise_append.1 hF
  -- The ends of all but the last piece are starts of the others.
  have hends : ∀ x ∈ G.map Prod.snd, x ∈ R.map Prod.fst := by
    intro x hx
    obtain ⟨p, hp, rfl⟩ := mem_map.1 hx
    have hlt : p.2 < q.1 := hsep.2.2 p hp q (mem_singleton_self q)
    have hq := h.inside (mem_append_left R (mem_append_right G (mem_singleton_self q)))
    have hqne := h.nonempty q
      (mem_append_left R (mem_append_right G (mem_singleton_self q)))
    obtain ⟨r, hr, he⟩ := h.next_piece hF (mem_append_left _ hp) (by omega)
    exact mem_map.2 ⟨r, hr, he⟩
  have hnodup : (G.map Prod.snd).Nodup := by
    refine (pairwise_map.2 ?_)
    refine hsep.1.imp_of_mem fun {p p'} hp hp' hlt => ?_
    have := h.nonempty p' (mem_append_left R (mem_append_left _ hp'))
    omega
  have := (subperm_of_subset hnodup hends).length_le
  simpa using this

end Tiling

end Bongos
