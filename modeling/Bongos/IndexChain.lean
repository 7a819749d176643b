import Mathlib.Data.List.Nodup

/-!
# Lists threaded through an array

A singly linked list whose links live in an array: `next i` is the element after `i`, and `stop`
ends the list. `Chain next stop h l` says that following the links from `h` passes through exactly
the elements of `l`, in order, and then ends. The two operations on the front of such a list write
one entry of the array each.
-/

namespace Bongos

open List

variable {α : Type*} {next next' : α → α} {stop h i : α} {l l' : List α}

/-- The links from `h` pass through `l` and end at `stop`. -/
inductive Chain (next : α → α) (stop : α) : α → List α → Prop
  | nil : Chain next stop stop []
  | cons {i : α} {l : List α} (hi : i ≠ stop) (hl : Chain next stop (next i) l) :
      Chain next stop i (i :: l)

namespace Chain

section

variable (c : Chain next stop h l)

include c

/-- The end mark is in no chain. -/
theorem stop_notMem : stop ∉ l := by
  induction c with
  | nil => exact not_mem_nil
  | cons hi _ ih => exact not_mem_cons_of_ne_of_not_mem hi.symm ih

/-- The elements that the links pass through are determined by where they start. -/
theorem unique (c' : Chain next stop h l') : l = l' := by
  induction c generalizing l' with
  | nil =>
    cases c' with
    | nil => rfl
    | cons hi _ => exact absurd rfl hi
  | cons hi _ ih =>
    cases c' with
    | nil => exact absurd rfl hi
    | cons _ hl => rw [ih hl]

/-- The link of an element is the next element or the end mark. -/
theorem next_mem (hi : i ∈ l) : next i = stop ∨ next i ∈ l := by
  induction c with
  | nil => exact absurd hi not_mem_nil
  | @cons j l hj c ih =>
    rcases mem_cons.1 hi with rfl | hi
    · cases c with
      | nil => exact Or.inl rfl
      | cons _ _ => exact Or.inr (mem_cons_of_mem _ mem_cons_self)
    · exact (ih hi).imp_right (mem_cons_of_mem j)

/-- Only the links of the elements matter. -/
theorem congr (hn : ∀ i ∈ l, next' i = next i) : Chain next' stop h l := by
  induction c with
  | nil => exact .nil
  | @cons i l hi _ ih =>
    refine .cons hi ?_
    rw [hn i mem_cons_self]
    exact ih fun j hj => hn j (mem_cons_of_mem i hj)

/-- Putting a new element at the end: the last link is written. -/
theorem snoc {tail : α} (hl : l.getLast? = some tail) (hnodup : l.Nodup)
    (hi : i ≠ stop) (hrest : ∀ j ∈ l, j ≠ tail → next' j = next j) (htail : next' tail = i)
    (hend : next' i = stop) : Chain next' stop h (l ++ [i]) := by
  induction c with
  | nil => cases hl
  | @cons j l hj hc ih =>
    refine .cons hj ?_
    cases l with
    | nil =>
      obtain rfl : j = tail := by simpa using hl
      rw [htail]
      refine .cons hi ?_
      rw [hend]
      exact .nil
    | cons k l =>
      obtain ⟨hjl, hnodup⟩ := nodup_cons.1 hnodup
      have hne : j ≠ tail := fun heq => hjl (heq ▸ mem_of_getLast? hl)
      rw [hrest j mem_cons_self hne]
      exact ih hl hnodup fun x hx => hrest x (mem_cons_of_mem j hx)

end

variable [DecidableEq α]

/-- Taking the front element off: the list starts at its link, whatever is written over that. -/
theorem pop (c : Chain next stop h (i :: l)) (hi : i ∉ l) (b : α) :
    h = i ∧ Chain (Function.update next i b) stop (next i) l := by
  cases c with
  | cons _ hl =>
    refine ⟨rfl, hl.congr fun j hj => Function.update_of_ne ?_ _ _⟩
    rintro rfl
    exact hi hj

/-- Putting a new element in front: its link is the old start. -/
theorem push (c : Chain next stop h l) (hi : i ≠ stop) (hil : i ∉ l) :
    Chain (Function.update next i h) stop i (i :: l) := by
  refine .cons hi ?_
  rw [Function.update_self]
  refine c.congr fun j hj => Function.update_of_ne ?_ _ _
  rintro rfl
  exact hil hj

end Chain

end Bongos
