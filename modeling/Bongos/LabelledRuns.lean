import Mathlib.Data.List.Induction
import Mathlib.Data.List.Pairwise

/-!
# Labelled runs

A list of half-open intervals of numbers with labels describes a function that gives some numbers a
label. The list is canonical when its runs are not empty, in order, apart, and no two runs with the
same label touch. A function has at most one canonical list (`Canonical.ext`), and a canonical list
is built from the left by adding a run at its end or extending its last run.
-/

namespace Bongos

open List

/-- The half-open interval from `lo` to `hi`, labelled. -/
@[ext]
structure LabelledRun (τ : Type*) where
  lo : ℕ
  hi : ℕ
  label : τ

variable {τ : Type*} {runs runs' : List (LabelledRun τ)} {r s : LabelledRun τ} {x lo mid hi : ℕ}
  {t u : τ}

/-- A run of the list gives the number `x` the label `t`. -/
def LabelAt (runs : List (LabelledRun τ)) (x : ℕ) (t : τ) : Prop :=
  ∃ r ∈ runs, r.lo ≤ x ∧ x < r.hi ∧ r.label = t

/-- The run `r` ends before `s` starts, and if they touch, their labels differ. -/
def LabelledRun.Before (r s : LabelledRun τ) : Prop :=
  r.hi ≤ s.lo ∧ (r.hi = s.lo → r.label ≠ s.label)

/-- A list of runs in canonical form. -/
structure Canonical (runs : List (LabelledRun τ)) : Prop where
  nonempty : ∀ r ∈ runs, r.lo < r.hi
  sorted : runs.Pairwise LabelledRun.Before

theorem labelAt_cons :
    LabelAt (r :: runs) x t ↔ r.lo ≤ x ∧ x < r.hi ∧ r.label = t ∨ LabelAt runs x t := by
  simp only [LabelAt, mem_cons, or_and_right, exists_or, exists_eq_left]

theorem labelAt_concat :
    LabelAt (runs ++ [r]) x t ↔ LabelAt runs x t ∨ r.lo ≤ x ∧ x < r.hi ∧ r.label = t := by
  simp only [LabelAt, mem_append, mem_singleton, or_and_right, exists_or, exists_eq_left]

namespace Canonical

theorem nil : Canonical ([] : List (LabelledRun τ)) :=
  ⟨fun _ h => absurd h not_mem_nil, .nil⟩

section

variable (h : Canonical (r :: runs))

include h

theorem tail : Canonical runs :=
  ⟨fun s hs => h.nonempty s (mem_cons_of_mem r hs), (pairwise_cons.1 h.sorted).2⟩

theorem head_lt : r.lo < r.hi := h.nonempty r mem_cons_self

/-- What is labelled by the runs behind the first one is behind it. -/
theorem hi_le (hx : LabelAt runs x t) : r.hi ≤ x := by
  obtain ⟨s, hs, hlo, -⟩ := hx
  exact Nat.le_trans ((pairwise_cons.1 h.sorted).1 s hs).1 hlo

/-- The label of the number right behind the first run is another one. -/
theorem label_ne (hx : LabelAt runs r.hi t) : r.label ≠ t := by
  obtain ⟨s, hs, hlo, -, rfl⟩ := hx
  obtain ⟨hle, hne⟩ := (pairwise_cons.1 h.sorted).1 s hs
  exact hne (Nat.le_antisymm hle hlo)

end

/-- No number has two labels. -/
theorem label_unique (h : Canonical runs) (ht : LabelAt runs x t) (hu : LabelAt runs x u) :
    t = u := by
  induction runs with
  | nil => exact absurd ht.choose_spec.1 not_mem_nil
  | cons r runs ih =>
    rcases labelAt_cons.1 ht with ⟨-, hlt, rfl⟩ | ht <;>
      rcases labelAt_cons.1 hu with ⟨-, hlt', rfl⟩ | hu
    · rfl
    · exact absurd (h.hi_le hu) (Nat.not_le.2 hlt)
    · exact absurd (h.hi_le ht) (Nat.not_le.2 hlt')
    · exact ih h.tail ht hu

section

variable (h : Canonical (r :: runs))

include h

/-- The labels behind the first run are those of the other runs. -/
theorem labelAt_tail : LabelAt runs x t ↔ r.hi ≤ x ∧ LabelAt (r :: runs) x t := by
  refine ⟨fun hx => ⟨h.hi_le hx, labelAt_cons.2 (.inr hx)⟩, fun ⟨hle, hx⟩ => ?_⟩
  exact (labelAt_cons.1 hx).resolve_left fun hr => absurd hr.2.1 (Nat.not_lt.2 hle)

/-- A first run that labels what another list labels ends no later than the first run there. -/
theorem hi_le_of_labelAt (hlo : r.lo = s.lo) (hlabel : r.label = s.label)
    (hsub : ∀ x t, LabelAt (s :: runs') x t → LabelAt (r :: runs) x t) : s.hi ≤ r.hi := by
  by_contra hlt
  have hr := h.head_lt
  -- Otherwise the number behind `r` has the label of `r`, from `s`.
  have hx : LabelAt (r :: runs) r.hi s.label :=
    hsub _ _ (labelAt_cons.2 (.inl ⟨by omega, by omega, rfl⟩))
  exact h.label_ne ((h.labelAt_tail).2 ⟨Nat.le_refl _, hx⟩) hlabel

/-- The first run starts at the first number with a label. -/
theorem lo_le_of_labelAt (hx : LabelAt (r :: runs) x t) : r.lo ≤ x := by
  rcases labelAt_cons.1 hx with hr | hx
  · exact hr.1
  · exact Nat.le_trans (Nat.le_of_lt h.head_lt) (h.hi_le hx)

/-- The first run labels its first number. -/
theorem labelAt_head : LabelAt (r :: runs) r.lo r.label :=
  labelAt_cons.2 (.inl ⟨Nat.le_refl _, h.head_lt, rfl⟩)

end

/-- Two canonical lists that give the same labels are the same. -/
theorem ext (h : Canonical runs) (h' : Canonical runs')
    (hlabels : ∀ x t, LabelAt runs x t ↔ LabelAt runs' x t) : runs = runs' := by
  induction runs generalizing runs' with
  | nil =>
    cases runs' with
    | nil => rfl
    | cons s runs' => exact absurd ((hlabels _ _).2 h'.labelAt_head).choose_spec.1 not_mem_nil
  | cons r runs ih =>
    cases runs' with
    | nil => exact absurd ((hlabels _ _).1 h.labelAt_head).choose_spec.1 not_mem_nil
    | cons s runs' =>
      have hr := (hlabels _ _).1 h.labelAt_head
      have hlo : r.lo = s.lo := Nat.le_antisymm
        (h.lo_le_of_labelAt ((hlabels _ _).2 h'.labelAt_head)) (h'.lo_le_of_labelAt hr)
      have hlabel : r.label = s.label := h'.label_unique hr (hlo ▸ h'.labelAt_head)
      have hhi : r.hi = s.hi := Nat.le_antisymm
        (h'.hi_le_of_labelAt hlo.symm hlabel.symm fun x t => (hlabels x t).1)
        (h.hi_le_of_labelAt hlo hlabel fun x t => (hlabels x t).2)
      obtain rfl : r = s := LabelledRun.ext hlo hhi hlabel
      congr 1
      exact ih h.tail h'.tail fun x t => by rw [h.labelAt_tail, h'.labelAt_tail, hlabels]

/-- An interval with one label lies inside one run. -/
theorem exists_run (h : Canonical runs) (hlt : lo < hi)
    (hlabel : ∀ x, lo ≤ x → x < hi → LabelAt runs x t) :
    ∃ r ∈ runs, r.lo ≤ lo ∧ hi ≤ r.hi ∧ r.label = t := by
  induction runs with
  | nil => exact absurd (hlabel lo (Nat.le_refl _) hlt).choose_spec.1 not_mem_nil
  | cons r runs ih =>
    rcases labelAt_cons.1 (hlabel lo (Nat.le_refl _) hlt) with ⟨hlo, hhi, rfl⟩ | hrest
    · refine ⟨r, mem_cons_self, hlo, ?_, rfl⟩
      -- The number behind a run that ends too early has the same label.
      by_contra hshort
      have hnext := hlabel r.hi (Nat.le_of_lt hhi) (by omega)
      exact h.label_ne (h.labelAt_tail.2 ⟨Nat.le_refl _, hnext⟩) rfl
    · have hle := h.hi_le hrest
      obtain ⟨s, hs, hinside⟩ := ih h.tail fun x hx hxhi =>
        h.labelAt_tail.2 ⟨Nat.le_trans hle hx, hlabel x hx hxhi⟩
      exact ⟨s, mem_cons_of_mem _ hs, hinside⟩

/-- A run can be added at the end, if the last run does not touch it with the same label. -/
theorem concat (h : Canonical runs) (hr : r.lo < r.hi) (hle : ∀ s ∈ runs, s.hi ≤ r.lo)
    (hlast : ∀ s ∈ runs.getLast?, s.hi = r.lo → s.label ≠ r.label) : Canonical (runs ++ [r]) := by
  refine ⟨fun s hs => ?_, pairwise_append.2 ⟨h.sorted, pairwise_singleton _ _, ?_⟩⟩
  · rcases mem_append.1 hs with hs | hs
    · exact h.nonempty s hs
    · exact mem_singleton.1 hs ▸ hr
  · intro s hs s' hs'
    obtain rfl := mem_singleton.1 hs'
    refine ⟨hle s hs, fun htouch => ?_⟩
    -- A run that is not the last one cannot touch: the last one is between them.
    obtain ⟨front, last, rfl⟩ : ∃ front last, runs = front ++ [last] :=
      ⟨_, _, (dropLast_concat_getLast (ne_nil_of_mem hs)).symm⟩
    rcases mem_append.1 hs with hfront | hlast'
    · have hbefore := (pairwise_append.1 h.sorted).2.2 s hfront last (mem_singleton_self _)
      have hne := h.nonempty last (by simp)
      have hend := hle last (by simp)
      have := hbefore.1
      omega
    · obtain rfl := mem_singleton.1 hlast'
      exact hlast s (by simp) htouch

/-- The last run can be extended. -/
theorem extend (h : Canonical (runs ++ [⟨lo, mid, t⟩])) (hlt : mid ≤ hi) :
    Canonical (runs ++ [⟨lo, hi, t⟩]) := by
  obtain ⟨hruns, -, hbefore⟩ := pairwise_append.1 h.sorted
  refine ⟨fun s hs => ?_, pairwise_append.2 ⟨hruns, pairwise_singleton _ _, ?_⟩⟩
  · rcases mem_append.1 hs with hs | hs
    · exact h.nonempty s (mem_append_left _ hs)
    · rw [mem_singleton.1 hs]
      exact Nat.lt_of_lt_of_le (h.nonempty ⟨lo, mid, t⟩ (by simp)) hlt
  · intro s hs s' hs'
    rw [mem_singleton.1 hs']
    exact hbefore s hs ⟨lo, mid, t⟩ (mem_singleton_self _)

end Canonical

end Bongos
