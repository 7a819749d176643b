import Bongos.Mm.PmmPartition

/-!
# What a wrong free is reported as

`pmmValidateForFree` reads the record of the frame that is to be freed, and for a `TAIL` frame the
records of the eleven frames that could head a free block over it. In every reachable state these
bytes are enough to tell what the frame is: `pmmValidateState_iff` by the state of the record, and
`PmmInv.coveredByFree_iff` for the frames inside a block.
-/

namespace Bongos.Mm

open FallibleState

open DyadicBlocks (InBlock inBlock_self inBlock_iff_div)

variable {w : PmmWorld} {f p k order pfn : ℕ}

/-! ## Frames inside a block -/

/-- A candidate of the scan is the frame's number rounded down. -/
theorem inBlock_floor (f k : ℕ) : InBlock f (f / 2^k * 2^k) k :=
  (inBlock_iff_div (Dvd.intro_left _ rfl)).2
    (Nat.mul_div_cancel _ (Nat.two_pow_pos k)).symm

/-- The scan finds a free block exactly when one holds the frame. -/
theorem PmmInv.coveredByFree_iff (i : PmmInv w none) : coveredByFree w.pmm.pages f = true ↔
      ∃ p k, Labelled w.pmm.pages .buddy k p ∧ InBlock f p k := by
  unfold coveredByFree
  rw [List.any_eq_true]
  constructor
  · rintro ⟨k, -, hk⟩
    obtain ⟨hstate, hle⟩ := of_decide_eq_true hk
    -- The candidate's block is at least as large as the alignment it was found by.
    refine ⟨_, _, ⟨hstate, rfl⟩, ?_⟩
    obtain ⟨h1, h2⟩ := inBlock_floor f k
    exact ⟨h1, h2.trans_le (Nat.add_le_add_left (Nat.pow_le_pow_right (by decide) hle) _)⟩
  · rintro ⟨p, k, ⟨hstate, horder⟩, hin⟩
    have hhead : head w.pmm.pages p = some k := head_eq_some.2 ⟨.inl hstate, horder⟩
    have hk : k ≤ PMM_MAX_ORDER := i.tiling.order_le hhead
    refine ⟨k, List.mem_range.2 (Nat.lt_succ_of_le hk), ?_⟩
    have hal := i.tiling.aligned hhead
    rw [(inBlock_iff_div hal).1 hin, Nat.div_mul_cancel hal]
    exact decide_eq_true ⟨hstate, horder.ge⟩

/-! ## What a frame is -/

/-- The frame is in a free block of a zone, or in a per-CPU cache. -/
def IsFreeFrame (w : PmmWorld) (f : ℕ) : Prop :=
  ∃ z, (∃ k p, Owns w (.free z k p) f) ∨ Owns w (.cache z) f

/-- The frame is in a live block that it does not head. -/
def IsLiveInterior (w : PmmWorld) (f : ℕ) : Prop :=
  ∃ p k, (p, k) ∈ w.live ∧ InBlock f p k ∧ f ≠ p

section

variable (i : PmmInv w none)

include i

/-- A free block over a frame, by its record. -/
theorem PmmInv.exists_free_iff : (∃ z k p, Owns w (.free z k p) f) ↔
      ∃ p k, Labelled w.pmm.pages .buddy k p ∧ InBlock f p k := by
  constructor
  · rintro ⟨z, k, p, hmem, hin⟩
    exact ⟨p, k, ((i.lists z).mem_iff.1 hmem).2, hin⟩
  · rintro ⟨p, k, hl, hin⟩
    exact ⟨pmmZoneOfPfn p, k, p, (i.lists _).mem_iff.2 ⟨rfl, hl⟩, hin⟩

/-- A cached frame, by its record. -/
theorem PmmInv.exists_cached_iff : (∃ z, Owns w (.cache z) f) ↔ (w.pmm.pages f).state = .pcp := by
  constructor
  · rintro ⟨z, hmem⟩
    exact ((i.cached z).mem_iff.1 hmem).2.1
  · intro hstate
    have horder := i.cached_order ⟨hstate, rfl⟩
    exact ⟨pmmZoneOfPfn f, (i.cached _).mem_iff.2 ⟨rfl, hstate, horder⟩⟩

/-- What the state byte of a frame says about the frame. -/
theorem PmmInv.isFreeFrame_iff : IsFreeFrame w f ↔
    (w.pmm.pages f).state = .buddy ∨ (w.pmm.pages f).state = .pcp ∨
      (w.pmm.pages f).state = .tail ∧ coveredByFree w.pmm.pages f = true := by
  have hsplit : IsFreeFrame w f ↔ (∃ p k, Labelled w.pmm.pages .buddy k p ∧ InBlock f p k) ∨
      (w.pmm.pages f).state = .pcp := by
    rw [← i.exists_free_iff, ← i.exists_cached_iff, ← exists_or]
    rfl
  rw [hsplit, i.coveredByFree_iff]
  constructor
  · rintro (⟨p, k, hl, hin⟩ | hpcp)
    · by_cases hfp : f = p
      · exact .inl (hfp ▸ hl.1)
      · have hhead : head w.pmm.pages p = some k := head_eq_some.2 ⟨.inl hl.1, hl.2⟩
        exact .inr (.inr ⟨(i.tiling.block_tail hhead hin hfp).1, p, k, hl, hin⟩)
    · exact .inr (.inl hpcp)
  · rintro (hbuddy | hpcp | ⟨-, hfree⟩)
    · exact .inl ⟨f, _, ⟨hbuddy, rfl⟩, inBlock_self f _⟩
    · exact .inr hpcp
    · exact .inl hfree

/-- A frame inside a live block is a `TAIL` frame that no free block holds. -/
theorem PmmInv.isLiveInterior_iff : IsLiveInterior w f ↔
    (w.pmm.pages f).state = .tail ∧ ¬ coveredByFree w.pmm.pages f = true := by
  rw [i.coveredByFree_iff]
  constructor
  · rintro ⟨p, k, hlive, hin, hne⟩
    obtain ⟨hstate, horder⟩ := i.live_iff.1 hlive
    have hhead : head w.pmm.pages p = some k := head_eq_some.2 ⟨.inr (.inr hstate), horder⟩
    refine ⟨(i.tiling.block_tail hhead hin hne).1, ?_⟩
    rintro ⟨q, j, hl, hin'⟩
    have hpq := i.tiling.head_eq hhead (head_eq_some.2 ⟨.inl hl.1, hl.2⟩) hin hin'
    subst hpq
    rw [hl.1] at hstate
    cases hstate
  · rintro ⟨htail, hno⟩
    obtain ⟨p, k, hhead, hin⟩ := i.tiling.cover htail (by simp)
    have hne : f ≠ p := by
      rintro rfl
      exact i.tiling.head_not_tail hhead htail
    obtain ⟨hstate | hstate | hstate, horder⟩ := head_eq_some.1 hhead
    · exact absurd ⟨p, k, ⟨hstate, horder⟩, hin⟩ hno
    · -- A cached block is one frame, so it has no interior.
      have hk : k = 0 := i.cached_order ⟨hstate, horder⟩
      rw [hk, DyadicBlocks.inBlock_zero] at hin
      exact absurd hin hne
    · exact ⟨p, k, i.live_iff.2 ⟨hstate, horder⟩, hin, hne⟩

end

/-! ## The checks -/

/-- No frame of a block carries an ownership flag. -/
theorem firstOwned_eq_none {pages : PageArray} : firstOwned pages pfn order = none ↔
    ∀ f, InBlock f pfn order → (pages f).flags &&& PAGE_F_OWNER_MASK = 0 := by
  simp only [firstOwned, List.find?_eq_none, List.mem_range'_1, bne_iff_ne, ne_eq, not_not]
  rfl

/-- A free with a frame that has a record, an order in range and an aligned frame gets to the
`switch`. -/
theorem pmmValidateForFree_eq {s : Pmm} (hvalid : pmmPfnValid s.spans pfn = true)
    (horder : order ≤ PMM_MAX_ORDER) (halign : 2^order ∣ pfn) :
    pmmValidateForFree s (pageFromPfn pfn) order = pmmValidateState s.pages pfn order := by
  have hmask : ¬ pfn &&& (2^order - 1) ≠ 0 := by
    rw [Nat.and_two_pow_sub_one_eq_mod, Nat.mod_eq_zero_of_dvd halign]
    simp
  have hva : 0 < PAGE_ARRAY_VA := by decide
  have haddr : ¬ (pageFromPfn pfn < PAGE_ARRAY_VA ∨
      (pageFromPfn pfn - PAGE_ARRAY_VA) % sizeofPage ≠ 0) := by
    unfold pageFromPfn
    rw [Nat.add_sub_cancel_left, Nat.mul_mod_left]
    omega
  have hne : pageFromPfn pfn ≠ 0 := by
    omega
  unfold pmmValidateForFree
  rw [if_neg hne, if_neg haddr, pageToPfn_pageFromPfn, if_neg (by simp [hvalid]),
    if_neg (Nat.not_lt.2 horder), if_neg hmask]

/-- What each answer of the `switch` says about the frame. -/
structure FreeVerdict (w : PmmWorld) (pfn order : ℕ) (verdict : Except (PmmBugKind × ℕ) ℕ) :
    Prop where
  /-- Accepted is the head of a live block of the order, none of whose frames has an owner. -/
  accept : verdict = .ok pfn ↔ (pfn, order) ∈ w.live ∧
    ∀ f, InBlock f pfn order → (w.pmm.pages f).flags &&& PAGE_F_OWNER_MASK = 0
  accept_self : ∀ p, verdict = .ok p → p = pfn
  doubleFree : (∃ p, verdict = .error (.doubleFree, p)) ↔ IsFreeFrame w pfn
  notHead : (∃ p, verdict = .error (.notHead, p)) ↔ IsLiveInterior w pfn
  reservedFrame : (∃ p, verdict = .error (.reservedFrame, p)) ↔ pfn ∉ w.added
  not_corrupt : ∀ p, verdict ≠ .error (.corruptState, p)

theorem PmmInv.freeVerdict (i : PmmInv w none) :
    FreeVerdict w pfn order (pmmValidateState w.pmm.pages pfn order) := by
  have hlive : (pfn, order) ∈ w.live ↔
      (w.pmm.pages pfn).state = .allocated ∧ (w.pmm.pages pfn).order = order := i.live_iff
  have hadded : pfn ∉ w.added ↔ (w.pmm.pages pfn).state = .reserved := by
    rw [i.added_iff, not_not]
  have hfree := i.isFreeFrame_iff (f := pfn)
  have hinterior := i.isLiveInterior_iff (f := pfn)
  rw [pmmValidateState_eq]
  cases hstate : (w.pmm.pages pfn).state with
  | allocated =>
    rw [hstate] at hlive hadded hfree hinterior
    by_cases horder : (w.pmm.pages pfn).order = order
    · cases howned : firstOwned w.pmm.pages pfn order with
      | none =>
        have hflags := firstOwned_eq_none.1 howned
        constructor <;> simp [hlive, hadded, hfree, hinterior, horder]
        exact hflags
      | some q =>
        have hflags := mt firstOwned_eq_none.2 (by rw [howned]; simp)
        constructor <;> simp [hlive, hadded, hfree, hinterior, horder]
        simpa using hflags
    · constructor <;> simp [hlive, hadded, hfree, hinterior, horder]
  | buddy =>
    rw [hstate] at hlive hadded hfree hinterior
    constructor <;> simp [hlive, hadded, hfree, hinterior]
  | pcp =>
    rw [hstate] at hlive hadded hfree hinterior
    constructor <;> simp [hlive, hadded, hfree, hinterior]
  | tail =>
    rw [hstate] at hlive hadded hfree hinterior
    cases hcovered : coveredByFree w.pmm.pages pfn <;>
      constructor <;> simp [hlive, hadded, hfree, hinterior, hcovered]
  | reserved =>
    rw [hstate] at hlive hadded hfree hinterior
    constructor <;> simp [hlive, hadded, hfree, hinterior]

/-- A call that reports a bug has written nothing. -/
theorem pmmFreePages_error {s s' : Pmm} {page order : ℕ} {bug : PmmBugKind × ℕ}
    (h : exec (pmmFreePages page order) s = (.error bug, s')) : s' = s := by
  unfold pmmFreePages at h
  rw [exec_get_bind] at h
  split at h
  · cases h
    rfl
  · dsimp only at h
    split_ifs at h <;> cases h

/-- **Wrong frees are told apart exactly.** In every state that calls with any arguments reach, for
every frame that has a record, every order in range, and an aligned frame. A call that is refused
leaves the allocator as it was. -/
theorem pmmValidateForFree_exact (spans : List PmmSpan) (pages : PageArray) (maxPfn : ℕ)
    (w : PmmWorld) (hres : ∀ f, (pages f).state = .reserved)
    (hrun : Run PmmStep (.init spans pages maxPfn) w) (pfn order : ℕ)
    (hvalid : pmmPfnValid w.pmm.spans pfn = true) (horder : order ≤ PMM_MAX_ORDER)
    (halign : 2^order ∣ pfn) :
    FreeVerdict w pfn order (pmmValidateForFree w.pmm (pageFromPfn pfn) order) ∧
      ∀ bug s', exec (pmmFreePages (pageFromPfn pfn) order) w.pmm = (.error bug, s') →
        s' = w.pmm := by
  have i : PmmInv w none :=
    hrun.invariant (PmmInv.init spans maxPfn hres) PmmInv.step
  refine ⟨?_, fun bug s' => pmmFreePages_error⟩
  rw [pmmValidateForFree_eq hvalid horder halign]
  exact i.freeVerdict

/-- Of the block of frames 0 and 1, the second is refused as not the head. -/
theorem pmmValidateForFree_exact_fourFrames : ∃ p, pmmValidateForFree
    (pmmAllocPages fourFrames 1 0).2 (pageFromPfn 1) 0 = .error (.notHead, p) := by
  have hverdict := (pmmValidateForFree_exact _ _ _ _ (fun _ => rfl) run_fourFrames 1 0
    (by decide +kernel) (by decide) (by decide)).1
  exact hverdict.notHead.2 ⟨0, 1, by simp, ⟨by decide, by decide⟩, by decide⟩

end Bongos.Mm
