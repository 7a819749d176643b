import Bongos.DyadicBlocks

/-!
# The `Page` array

`page.h` keeps one `Page` record per managed frame, and the physical memory manager keeps the state
of every block in the `state` and `order` fields of these records alone. Here the array is a
function of the frame number, `pageFromPfn` is its application, and a frame with no record reads as
the zero-filled one, which is `RESERVED`.

`head` and `IsTail` read the array as a labelling of the frames by blocks, and `PageTiling` says
that the labels are a `DyadicBlocks.Tiling`: this is the part of the allocator's invariant that
lives in the array. `relabel` is the only way in which the allocator writes `state` and `order`, and
the three lemmas `PageTiling.dissolve`, `PageTiling.form`, and `PageTiling.enter` say what its
writes do to the tiling.
-/

namespace Bongos.Mm

open DyadicBlocks (InBlock)

/-- `PMM_MAX_ORDER`: the largest block has `2^10` frames. -/
def PMM_MAX_ORDER : ℕ := 10

/-- `PMM_ORDER_COUNT`: the orders are `0` to `PMM_MAX_ORDER`. -/
def PMM_ORDER_COUNT : ℕ := 11

/-- `PageState`: what a frame is to the physical memory manager. -/
inductive PageState where
  | reserved
  | tail
  | buddy
  | pcp
  | allocated
  deriving DecidableEq

/-- `Page`: the record of one frame. The list link `lru` is not here: the lists of the model hold
the frame numbers themselves. -/
structure Page where
  state : PageState := .reserved
  order : ℕ := 0
  flags : ℕ := 0
  refcount : ℤ := 0
  mapcount : ℤ := 0
  object : ℕ := 0
  objectIndex : ℕ := 0
  privateWord : ℕ := 0
  deriving DecidableEq

/-- The `Page` array, by frame number. -/
abbrev PageArray := ℕ → Page

variable (pages : PageArray)

/-- Writes the `state` and `order` of one frame. -/
def relabel (p : ℕ) (s : PageState) (k : ℕ) : PageArray :=
  Function.update pages p { pages p with state := s, order := k }

@[simp]
theorem relabel_self (p : ℕ) (s : PageState) (k : ℕ) :
    relabel pages p s k p = { pages p with state := s, order := k } := by
  simp [relabel]

variable {p q k j : ℕ} {s s' : PageState}

@[simp]
theorem relabel_of_ne {f : ℕ} (h : f ≠ p) : relabel pages p s k f = pages f := by
  simp [relabel, h]

/-- A second write to a frame covers the first. -/
@[simp]
theorem relabel_relabel (k k' : ℕ) :
    relabel (relabel pages p s k) p s' k' = relabel pages p s' k' := by
  simp [relabel]

/-- Frame `p` carries the state `s` and the order `k`. -/
def Labelled (s : PageState) (k p : ℕ) : Prop :=
  (pages p).state = s ∧ (pages p).order = k

variable {pages}

/-- The labels after a write to one frame. -/
theorem labelled_relabel : Labelled (relabel pages p s k) s' j q ↔
      (q = p ∧ s = s' ∧ k = j) ∨ (q ≠ p ∧ Labelled pages s' j q) := by
  by_cases h : q = p
  · subst h; simp [Labelled]
  · simp [Labelled, h]

/-- A write that neither sets nor ends the state `s'` leaves the frames of that state. -/
theorem labelled_relabel_other (hp : (pages p).state ≠ s') (hs : s ≠ s') :
    Labelled (relabel pages p s k) s' j q ↔ Labelled pages s' j q := by
  rw [labelled_relabel]
  refine ⟨fun h => ?_, fun h => Or.inr ⟨fun e => hp (e ▸ h.1), h⟩⟩
  rcases h with ⟨-, h, -⟩ | ⟨-, h⟩
  · exact absurd h hs
  · exact h

/-- The order of the block that a frame heads: a free block, a cached frame, or an allocated
block. -/
def head (pages : PageArray) (p : ℕ) : Option ℕ :=
  match (pages p).state with
  | .buddy | .pcp | .allocated => some (pages p).order
  | .reserved | .tail => none

/-- The frame is in the interior of a block, or held by the allocator's own code. -/
def IsTail (pages : PageArray) (f : ℕ) : Prop := (pages f).state = .tail

/-- The `Page` array labels the frames by disjoint aligned blocks; the frames of `H` are `TAIL` and
in no block. -/
abbrev PageTiling (pages : PageArray) (H : Set ℕ) : Prop :=
  DyadicBlocks.Tiling PMM_MAX_ORDER (head pages) (IsTail pages) H

theorem head_eq_some : head pages p = some k ↔ ((pages p).state = .buddy ∨ (pages p).state = .pcp ∨
      (pages p).state = .allocated) ∧ (pages p).order = k := by
  unfold head
  cases (pages p).state <;> simp

theorem head_eq_none :
    head pages p = none ↔ (pages p).state = .reserved ∨ (pages p).state = .tail := by
  unfold head
  cases (pages p).state <;> simp

/-- The head of a block after a write of its state. -/
theorem head_relabel (pages : PageArray) (p f : ℕ) : head (relabel pages p s k) f =
      if f = p then (match s with
        | .buddy | .pcp | .allocated => some k
        | .reserved | .tail => none) else head pages f := by
  by_cases h : f = p
  · subst h; simp only [head, relabel_self, if_true]
  · simp only [head, relabel_of_ne _ h, if_neg h]

/-- An array with no label at all is a tiling. -/
theorem PageTiling.of_reserved (h : ∀ f, (pages f).state = .reserved) : PageTiling pages ∅ := by
  have hnone : ∀ p k, head pages p ≠ some k := by
    intro p k hp
    have := head_eq_some.1 hp
    simp [h p] at this
  have hnt : ∀ f, ¬ IsTail pages f := by
    intro f hf
    rw [IsTail, h f] at hf
    cases hf
  constructor
  · intro p k hp; exact absurd hp (hnone p k)
  · intro p k hp; exact absurd hp (hnone p k)
  · intro p k hp; exact absurd hp (hnone p k)
  · intro p k f hp; exact absurd hp (hnone p k)
  · intro f hf; exact absurd hf (Set.notMem_empty f)
  · intro f hf; exact absurd hf (hnt f)

/-- Writing `TAIL` to the head of a block takes the block's frames out of the tiling. -/
theorem PageTiling.dissolve {H : Set ℕ} (t : PageTiling pages H) (hp : head pages p = some k) :
    PageTiling (relabel pages p .tail j) (H ∪ {f | InBlock f p k}) := by
  refine DyadicBlocks.Tiling.dissolve t hp (fun f => head_relabel pages p f) (fun f => ?_)
  by_cases h : f = p
  · subst h; simp [IsTail]
  · simp [IsTail, h]

/-- Writing a head state with order `k` over frames taken out makes them a block. -/
theorem PageTiling.form {H : Set ℕ} (t : PageTiling pages H)
    (hs : s = .buddy ∨ s = .pcp ∨ s = .allocated) (hk : k ≤ PMM_MAX_ORDER) (hal : 2^k ∣ p)
    (hH : ∀ f, InBlock f p k → f ∈ H) :
    PageTiling (relabel pages p s k) (H \ {f | InBlock f p k}) := by
  refine DyadicBlocks.Tiling.form t hk hal hH (fun f => ?_) (fun f => ?_)
  · rw [head_relabel]
    rcases hs with rfl | rfl | rfl <;> rfl
  · by_cases h : f = p
    · subst h; rcases hs with rfl | rfl | rfl <;> simp [IsTail]
    · simp [IsTail, h]

/-- The states of two arrays agree outside the frames of `S`, which go from `RESERVED` to `TAIL`:
the frames of `S` are then taken out. -/
theorem PageTiling.enter {pages' : PageArray} {H S : Set ℕ} (t : PageTiling pages H)
    (hS : ∀ f ∈ S, (pages f).state = .reserved ∧ (pages' f).state = .tail)
    (hS' : ∀ f, f ∉ S → pages' f = pages f) : PageTiling pages' (H ∪ S) := by
  refine DyadicBlocks.Tiling.enter t (fun f hf => ?_) (fun f => ?_) (fun f => ?_)
  · have := (hS f hf).1
    exact ⟨head_eq_none.2 (Or.inl this), by simp [IsTail, this]⟩
  · by_cases hf : f ∈ S
    · rw [head_eq_none.2 (Or.inr (hS f hf).2), head_eq_none.2 (Or.inl (hS f hf).1)]
    · simp only [head, hS' f hf]
  · by_cases hf : f ∈ S
    · simp [IsTail, (hS f hf).2, hf]
    · simp [IsTail, hS' f hf, hf]

end Bongos.Mm
