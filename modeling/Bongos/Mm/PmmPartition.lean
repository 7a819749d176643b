import Bongos.Mm.PmmInvariant

/-!
# Every frame has one owner

The calls of the memory manager in terms of the moves of `PmmInvariant`, and what follows for runs:
after any sequence of calls every frame that was ever added has exactly one owner, the free lists
and the caches hold nothing else, and the counters count what they name.
-/

namespace Bongos.Mm

open FallibleState List

open DyadicBlocks (InBlock inBlock_self)

variable {s s' : Pmm} {live : List (ℕ × ℕ)} {added : Set ℕ}

section

variable (i : PmmInv ⟨s, live, added⟩ none)

include i

/-! ## The caches -/

/-- The refill loop moves frames from the free lists to the cache. -/
theorem pmmCacheRefill_inv (z : PmmZoneId) (n : ℕ) :
    PmmInv ⟨pmmCacheRefill z n s, live, added⟩ none ∧ (pmmCacheRefill z n s).spans = s.spans := by
  induction n generalizing s with
  | zero => exact ⟨i, rfl⟩
  | succ n ih =>
    simp only [pmmCacheRefill]
    split
    · exact ⟨i, rfl⟩
    next pfn pages zone h =>
      obtain ⟨hz, i'⟩ := i.takeFree h
      refine ih ?_
      -- The refill writes the state only: the order is the zero that the core left.
      rw [setState, buddyAllocBlock_order h]
      exact i'.putCached hz

/-- The result of an attempt to allocate: on failure the invariant stands, and on success it stands
once the block is marked as allocated. -/
def AllocInv (spans : List PmmSpan) (live : List (ℕ × ℕ)) (added : Set ℕ) (order : ℕ) :
    Option ℕ × Pmm → Prop
  | (none, s) => PmmInv ⟨s, live, added⟩ none ∧ s.spans = spans
  | (some pfn, s) => PmmInv ⟨{ s with pages := relabel s.pages pfn .allocated order },
      (pfn, order) :: live, added⟩ none ∧ s.spans = spans

/-- `pmmCacheAllocLocked` takes a frame from the cache. -/
theorem pmmCacheAllocLocked_inv (z : PmmZoneId) :
    AllocInv s.spans live added 0 (pmmCacheAllocLocked s z) := by
  obtain ⟨t, ht, i', hspans⟩ : ∃ t, (if (s.cache z).count = 0 then pmmCacheRefill z PMM_PCP_BATCH s
      else s) = t ∧ PmmInv ⟨t, live, added⟩ none ∧ t.spans = s.spans := by
    split_ifs
    · exact ⟨_, rfl, pmmCacheRefill_inv i z _⟩
    · exact ⟨_, rfl, i, rfl⟩
  unfold pmmCacheAllocLocked
  rw [ht]
  simp only
  split_ifs
  · exact ⟨i', hspans⟩
  · split
    · exact ⟨i', hspans⟩
    next pfn rest hp =>
      have := (i'.takeCached (Perm.of_eq hp) 0).2.putLive
      rw [relabel_relabel] at this
      exact ⟨this, hspans⟩

variable {p pfn order page endPfn f : ℕ} {pages : PageArray} {w : PmmWorld}

/-- A cached frame goes back to the free lists. -/
theorem pmmReleaseCached_inv {z : PmmZoneId} {rest : List ℕ}
    (h : (s.cache z).pages.Perm (p :: rest)) :
    PmmInv ⟨pmmReleaseCached s z p rest, live, added⟩ none := by
  obtain ⟨hz, i'⟩ := i.takeCached h (s.pages p).order
  exact i'.putFree hz

omit i in
/-- The overflow loop and the drain loop release cached frames, and keep what every release
keeps. -/
theorem releases_keep {P : Pmm → Prop} (hstep : ∀ {s z p rest},
      (s.cache z).pages.Perm (p :: rest) → P s → P (pmmReleaseCached s z p rest)) (h : P s) :
    (∀ z n, P (pmmCacheOverflow z n s)) ∧ P (pmmDrainLocalCache s) := by
  have hdrain : ∀ z n {s}, P s → P (pmmDrainZone z n s) := by
    intro z n s h
    induction n generalizing s with
    | zero => exact h
    | succ n ih =>
      simp only [pmmDrainZone]
      split
      · exact h
      next p rest hp => exact ih (hstep (Perm.of_eq hp) h)
  refine ⟨fun z n => ?_, hdrain _ _ (hdrain _ _ h)⟩
  induction n generalizing s with
  | zero => exact h
  | succ n ih =>
    simp only [pmmCacheOverflow]
    split
    · exact h
    next p hp =>
      refine ih (hstep ?_ h)
      obtain ⟨init, hinit⟩ := getLast?_eq_some_iff.1 hp
      rw [hinit, dropLast_concat]
      exact perm_append_singleton p init

theorem releases_inv :
    (∀ z n, PmmInv ⟨pmmCacheOverflow z n s, live, added⟩ none ∧
      (pmmCacheOverflow z n s).spans = s.spans) ∧
    PmmInv ⟨pmmDrainLocalCache s, live, added⟩ none ∧ (pmmDrainLocalCache s).spans = s.spans :=
  releases_keep (P := fun t => PmmInv ⟨t, live, added⟩ none ∧ t.spans = s.spans)
    (fun hp h => ⟨pmmReleaseCached_inv h.1 hp, h.2⟩) ⟨i, rfl⟩

/-- A live frame goes to the cache of its zone. -/
theorem pmmCacheFreeLocked_inv (h : (pfn, 0) ∈ live) :
    PmmInv ⟨pmmCacheFreeLocked s (pmmZoneOfPfn pfn) pfn, live.erase (pfn, 0), added⟩ none ∧
      (pmmCacheFreeLocked s (pmmZoneOfPfn pfn) pfn).spans = s.spans := by
  have i1 := (i.takeLive h 0).putCached rfl
  have i2 := i1.congr_labels (Function.update s.pages pfn
      { s.pages pfn with state := .pcp, order := 0, refcount := 0 }) fun f => by
    by_cases hf : f = pfn
    · subst hf; simp
    · simp [hf]
  unfold pmmCacheFreeLocked
  simp only
  split_ifs
  · exact (releases_inv i2).1 _ _
  · exact ⟨i2, rfl⟩

/-! ## Allocating and freeing -/

theorem pmmAllocFrom_inv (order : ℕ) (z : PmmZoneId) :
    AllocInv s.spans live added order (pmmAllocFrom s order z) := by
  unfold pmmAllocFrom
  split_ifs with h0
  · subst h0; exact pmmCacheAllocLocked_inv i z
  · split
    · exact ⟨i, rfl⟩
    next pfn pages zone h => exact ⟨(i.takeFree h).2.putLive, rfl⟩

theorem pmmAllocLoop_inv (order : ℕ) (zones : List PmmZoneId) :
    AllocInv s.spans live added order (pmmAllocLoop order zones s) := by
  induction zones generalizing s with
  | nil => exact ⟨i, rfl⟩
  | cons z zs ih =>
    have hz := pmmAllocFrom_inv i order z
    simp only [pmmAllocLoop]
    split <;> rename_i h <;> rw [h] at hz
    · exact hz
    · exact hz.2 ▸ ih hz.1

/-- `pmmAllocPages` keeps the invariant, and the block it returns is a live one from then on. -/
theorem pmmAllocPages_inv {flags : PmmFlags} :
    (∀ e, pmmAllocPages s order flags = (.error e, s') →
        PmmInv ⟨s', live, added⟩ none ∧ s'.spans = s.spans) ∧
      (∀ page, pmmAllocPages s order flags = (.ok page, s') →
        PmmInv ⟨s', (pageToPfn page, order) :: live, added⟩ none ∧ s'.spans = s.spans) := by
  have hloop := pmmAllocLoop_inv i order (pmmZoneListFor flags)
  unfold pmmAllocPages
  split_ifs
  · refine ⟨fun e h => ?_, fun page h => ?_⟩ <;> cases h
    exact ⟨i, rfl⟩
  · split
    next t ht =>
      rw [ht] at hloop
      refine ⟨fun e h => ?_, fun page h => ?_⟩ <;> cases h
      exact hloop
    next pfn t ht =>
      rw [ht] at hloop
      refine ⟨fun e h => ?_, fun page h => ?_⟩ <;> cases h
      rw [pageToPfn_pageFromPfn]
      refine ⟨hloop.1.congr_labels _ fun f => ?_, hloop.2⟩
      by_cases hf : f = pfn
      · subst hf; simp [allocatedHead]
      · simp [hf]

omit i in
/-- Only the head of an allocated block of the given order passes the `switch`. -/
theorem pmmValidateState_ok {pfn' : ℕ} (h : pmmValidateState pages pfn order = .ok pfn') :
    pfn' = pfn ∧ Labelled pages .allocated order pfn := by
  rw [pmmValidateState_eq] at h
  split at h
  next hstate =>
    split_ifs at h with horder
    split at h
    · cases h
    · cases h; exact ⟨rfl, hstate, not_not.1 horder⟩
  · cases h
  · cases h
  · split_ifs at h
  · cases h

/-- `pmmFreePages` keeps the invariant, and the block it is given was a live one. -/
theorem pmmFreePages_inv (h : exec (pmmFreePages page order) s = (.ok ⟨⟩, s')) :
    (pageToPfn page, order) ∈ live ∧
      PmmInv ⟨s', live.erase (pageToPfn page, order), added⟩ none ∧ s'.spans = s.spans := by
  unfold pmmFreePages at h
  rw [exec_get_bind] at h
  split at h
  · cases h
  rename_i pfn hv
  unfold pmmValidateForFree at hv
  split_ifs at hv
  obtain ⟨rfl, hl⟩ := pmmValidateState_ok hv
  have hlive : (pageToPfn page, order) ∈ live := i.live_iff.2 hl
  refine ⟨hlive, ?_⟩
  dsimp only at h
  split_ifs at h with h0
  · subst h0; cases h; exact pmmCacheFreeLocked_inv i hlive
  · cases h
    have i1 := (i.takeLive hlive 0).congr_labels (Function.update s.pages (pageToPfn page)
        { s.pages (pageToPfn page) with state := .tail, order := 0, refcount := 0 }) fun f => by
      by_cases hf : f = pageToPfn page
      · subst hf; simp
      · simp [hf]
    exact ⟨i1.putFree rfl, rfl⟩

/-! ## Adding memory -/

omit i in
/-- The shrinking loop ends at an order that fits. -/
theorem shrinkOrder_spec {avail : ℕ} (h : 0 < avail) (k : ℕ) :
    shrinkOrder avail k ≤ k ∧ 2^shrinkOrder avail k ≤ avail := by
  induction k with
  | zero => exact ⟨le_rfl, by rw [shrinkOrder, pow_zero]; exact h⟩
  | succ k ih =>
    simp only [shrinkOrder]
    split_ifs with hk
    · exact ⟨ih.1.trans (Nat.le_succ k), ih.2⟩
    · exact ⟨le_rfl, not_lt.1 hk⟩

omit i in
/-- The block that the decomposition loop frees is aligned and inside the range. -/
theorem addOrder_spec (h : pfn < endPfn) :
    addOrder pfn endPfn ≤ PMM_MAX_ORDER ∧ 2^addOrder pfn endPfn ∣ pfn ∧
      pfn + 2^addOrder pfn endPfn ≤ endPfn := by
  obtain ⟨hle, hfit⟩ := shrinkOrder_spec (Nat.sub_pos_of_lt h)
    (min (if pfn = 0 then PMM_MAX_ORDER else ctz pfn) PMM_MAX_ORDER)
  refine ⟨hle.trans (min_le_right _ _), ?_, ?_⟩
  · by_cases h0 : pfn = 0
    · rw [h0]; exact dvd_zero _
    · rw [if_neg h0] at hle
      have hctz : addOrder pfn endPfn ≤ ctz pfn := by
        rw [addOrder, if_neg h0]
        exact hle.trans (min_le_left _ _)
      exact (pow_dvd_pow 2 hctz).trans two_pow_ctz_dvd
  · simp only [addOrder]
    omega

/-- One round of the decomposition loop. -/
theorem pmmAddBlock_inv (hk : order ≤ PMM_MAX_ORDER) (hal : 2^order ∣ pfn)
    (hnew : ∀ f, InBlock f pfn order → f ∉ added) :
    PmmInv ⟨pmmAddBlock s pfn order, live, added ∪ {f | InBlock f pfn order}⟩ none := by
  have hres : ∀ f, InBlock f pfn order → (s.pages f).state = .reserved := fun f hf =>
    not_not.1 fun h => hnew f hf (i.added_iff.2 h)
  have i' := (i.enter hk hal hres).putFree rfl
  simp only [Function.update_self, Function.update_idem] at i'
  exact i'

/-- The decomposition loop adds the frames of the range. -/
theorem pmmAddFrom_inv (hnew : ∀ f, pfn ≤ f → f < endPfn → f ∉ added) :
    PmmInv ⟨pmmAddFrom s pfn endPfn, live, added ∪ {f | pfn ≤ f ∧ f < endPfn}⟩ none ∧
      (pmmAddFrom s pfn endPfn).spans = s.spans := by
  fun_induction pmmAddFrom s pfn endPfn generalizing added with
  | case1 s pfn hlt ih =>
    obtain ⟨hk, hal, hfit⟩ := addOrder_spec hlt
    have i' := pmmAddBlock_inv i hk hal fun f hf => hnew f hf.1 (hf.2.trans_le hfit)
    obtain ⟨i'', hspans⟩ := ih i' fun f hle hf hmem => by
      rcases hmem with hmem | hmem
      · exact hnew f ((Nat.le_add_right _ _).trans hle) hf hmem
      · exact absurd hmem.2 (not_lt.2 hle)
    refine ⟨?_, hspans⟩
    convert i'' using 2
    ext f
    simp only [Set.mem_union, Set.mem_ofPred_eq, InBlock]
    have : pfn ≤ f ∧ f < endPfn ↔ (pfn ≤ f ∧ f < pfn + 2^addOrder pfn endPfn) ∨
        (pfn + 2^addOrder pfn endPfn ≤ f ∧ f < endPfn) := by omega
    tauto
  | case2 s pfn hge =>
    have hempty : {f | pfn ≤ f ∧ f < endPfn} = (∅ : Set ℕ) := by
      ext f; simp only [Set.mem_ofPred_eq, Set.mem_empty_iff_false, iff_false]; omega
    rw [hempty, Set.union_empty]
    exact ⟨i, rfl⟩

/-- The frames of `[physBase, physBase + length)`. -/
def rangeFrames (physBase length : ℕ) : Set ℕ :=
  {f | physBase >>> 12 ≤ f ∧ f < (physBase >>> 12) + (length >>> 12)}

/-- `pmmAddFreeRange` adds the frames of its range when it succeeds, and nothing otherwise. -/
theorem pmmAddFreeRange_inv {physBase length : ℕ} {st : Status}
    (h : pmmAddFreeRange s physBase length = (st, s')) :
    PmmInv ⟨s', live, if st = .ok then added ∪ rangeFrames physBase length else added⟩ none ∧
      s'.spans = s.spans := by
  unfold pmmAddFreeRange at h
  simp only at h
  split_ifs at h with h1 h2 h3 h4
  · cases h; exact ⟨i, rfl⟩
  · cases h
    have : rangeFrames physBase length = ∅ := by
      ext f
      simp only [rangeFrames, h2, Nat.zero_shiftRight, Set.mem_ofPred_eq, Set.mem_empty_iff_false,
        iff_false]
      omega
    simpa [this] using i
  · cases h; exact ⟨i, rfl⟩
  · cases h; exact ⟨i, rfl⟩
  · cases h
    refine pmmAddFrom_inv i fun f hle hlt hmem => h4 ?_
    rw [any_eq_true]
    refine ⟨f, mem_range'_1.2 ⟨hle, by omega⟩, ?_⟩
    have := i.added_iff.1 hmem
    simp [this]

end

/-! ## Runs -/

/-- One call, with arbitrary arguments, or a write of a frame's owner to the other fields of its
record. A free that reports a bug does not return, so it is no step. -/
inductive PmmStep : PmmWorld → PmmWorld → Prop
  | addFreeRange {w : PmmWorld} {physBase length : ℕ} {st : Status} {s' : Pmm}
      (h : pmmAddFreeRange w.pmm physBase length = (st, s')) :
      PmmStep w ⟨s', w.live, if st = .ok then w.added ∪ rangeFrames physBase length else w.added⟩
  | alloc {w : PmmWorld} {order page : ℕ} {flags : PmmFlags} {s' : Pmm}
      (h : pmmAllocPages w.pmm order flags = (.ok page, s')) :
      PmmStep w ⟨s', (pageToPfn page, order) :: w.live, w.added⟩
  | allocFail {w : PmmWorld} {order : ℕ} {flags : PmmFlags} {e : Status} {s' : Pmm}
      (h : pmmAllocPages w.pmm order flags = (.error e, s')) : PmmStep w ⟨s', w.live, w.added⟩
  | free {w : PmmWorld} {page order : ℕ} {s' : Pmm}
      (h : exec (pmmFreePages page order) w.pmm = (.ok ⟨⟩, s')) :
      PmmStep w ⟨s', w.live.erase (pageToPfn page, order), w.added⟩
  | drainLocalCache {w : PmmWorld} : PmmStep w ⟨pmmDrainLocalCache w.pmm, w.live, w.added⟩
  | ownerWrite {w : PmmWorld} {pages : PageArray}
      (h : ∀ f, (pages f).state = (w.pmm.pages f).state ∧
        (pages f).order = (w.pmm.pages f).order) :
      PmmStep w { w with pmm := { w.pmm with pages := pages } }

/-- The memory manager before any memory is added, with no block out. -/
def PmmWorld.init (spans : List PmmSpan) (pages : PageArray) (maxPfn : ℕ) : PmmWorld :=
  ⟨.init spans pages maxPfn, [], ∅⟩

theorem PmmInv.init (spans : List PmmSpan) (maxPfn : ℕ)
    (h : ∀ f, (pages f).state = .reserved) : PmmInv (.init spans pages maxPfn) none := by
  have hlab : ∀ {s}, s ≠ .reserved → ∀ k f, ¬ Labelled pages s k f := fun hs k f hl =>
    hs (hl.1.symm.trans (h f))
  refine ⟨flightFrames_none ▸ PageTiling.of_reserved h, fun z => ?_, fun z => ?_,
    fun z => ?_, ?_, ?_, nodup_nil, fun {f} => ?_, fun z => ?_, fun z => ?_, fun h => nomatch h⟩
  · cases z <;> exact ⟨⟨fun hp => (not_mem_nil hp).elim,
      fun hp => (hlab (by decide) _ _ hp.2).elim⟩, fun _ => nodup_nil, fun _ => rfl⟩
  · cases z <;> simp [PmmWorld.init, Pmm.init, buddyZoneInit, PmmZone.listedPages]
  · exact ⟨⟨fun hp => (not_mem_nil hp).elim, fun hp => (hlab (by decide) _ _ hp.2).elim⟩,
      nodup_nil, rfl⟩
  · exact fun hl => (hlab (by decide) _ _ hl).elim
  · exact ⟨fun hp => (not_mem_nil hp).elim, fun hp => (hlab (by decide) _ _ hp).elim⟩
  · simp [PmmWorld.init, Pmm.init, h f]
  · cases z <;> simp [PmmWorld.init, Pmm.init, buddyZoneInit]
  · cases z <;> simp [PmmWorld.init, Pmm.init, buddyZoneInit]

/-- Every step keeps the invariant and the spans. -/
theorem PmmInv.next {w' : PmmWorld} (i : PmmInv w none) (h : PmmStep w w') :
    PmmInv w' none ∧ w'.pmm.spans = w.pmm.spans := by
  cases h with
  | addFreeRange h => exact pmmAddFreeRange_inv i h
  | alloc h => exact (pmmAllocPages_inv i).2 _ h
  | allocFail h => exact (pmmAllocPages_inv i).1 _ h
  | free h => exact (pmmFreePages_inv i h).2
  | drainLocalCache => exact (releases_inv i).2
  | ownerWrite h => exact ⟨i.congr_labels _ h, rfl⟩

theorem PmmInv.step {w' : PmmWorld} (i : PmmInv w none) (h : PmmStep w w') : PmmInv w' none :=
  (i.next h).1

/-! ## The partition -/

/-- The owners a frame can have: a free block on a list, a per-CPU cache, or the caller that holds a
block. -/
inductive Owner where
  | free (z : PmmZoneId) (k p : ℕ)
  | cache (z : PmmZoneId)
  | caller (k p : ℕ)

/-- The frame belongs to the owner. -/
def Owns (w : PmmWorld) : Owner → ℕ → Prop
  | .free z k p, f => p ∈ (w.pmm.zones z).freeList k ∧ InBlock f p k
  | .cache z, f => f ∈ (w.pmm.cache z).pages
  | .caller k p, f => (p, k) ∈ w.live ∧ InBlock f p k

/-- Frame `p` heads an aligned block of order `k` in the state `s`, and the block's other frames are
`TAIL`. -/
structure IsBlock (pages : PageArray) (s : PageState) (k p : ℕ) : Prop where
  state_eq : (pages p).state = s
  order_eq : (pages p).order = k
  order_le : k ≤ PMM_MAX_ORDER
  aligned : 2^k ∣ p
  tails : ∀ f, InBlock f p k → f ≠ p → (pages f).state = .tail

/-- The frames that were added, each with one owner, and the counters of the zones. -/
structure FramePartition (w : PmmWorld) : Prop where
  /-- A frame that entered a zone has exactly one owner. -/
  owner : ∀ f ∈ w.added, ∃! o, Owns w o f
  /-- No other frame has an owner. -/
  owned : ∀ o f, Owns w o f → f ∈ w.added
  /-- A head on a free list is there once, in the zone of its frame, and heads a free block. -/
  free : ∀ z k p, p ∈ (w.pmm.zones z).freeList k →
    pmmZoneOfPfn p = z ∧ ((w.pmm.zones z).freeList k).count p = 1 ∧ IsBlock w.pmm.pages .buddy k p
  /-- A frame in a cache is there once, in the zone of the frame, and is marked as cached. -/
  cached : ∀ z p, p ∈ (w.pmm.cache z).pages →
    pmmZoneOfPfn p = z ∧ (w.pmm.cache z).pages.count p = 1 ∧ IsBlock w.pmm.pages .pcp 0 p
  /-- A live block is a caller's once, and is marked as allocated with its order. -/
  live : ∀ p k, (p, k) ∈ w.live → w.live.count (p, k) = 1 ∧ IsBlock w.pmm.pages .allocated k p
  /-- Two live blocks never overlap. -/
  live_disjoint : ∀ p k q j f, (p, k) ∈ w.live → (q, j) ∈ w.live → InBlock f p k → InBlock f q j →
    (p, k) = (q, j)
  freeBlocks_eq : ∀ z k, (w.pmm.zones z).freeBlocks k = ((w.pmm.zones z).freeList k).length
  freePages_eq : ∀ z, (w.pmm.zones z).freePages =
    ∑ k ∈ Finset.range PMM_ORDER_COUNT, (w.pmm.zones z).freeBlocks k * 2^k
  cached_eq : ∀ z, (w.pmm.cache z).count = (w.pmm.cache z).pages.length
  managed_eq : ∀ z, (w.pmm.zones z).managedPages =
    (w.pmm.zones z).freePages + (w.pmm.cache z).count + blockPages z w.live

/-- The owner of the block that frame `p` heads, read off its record; a frame that heads no block
has none. -/
def ownerOf (pages : PageArray) (p : ℕ) : Option Owner :=
  match (pages p).state with
  | .buddy => some (.free (pmmZoneOfPfn p) (pages p).order p)
  | .pcp => some (.cache (pmmZoneOfPfn p))
  | .allocated => some (.caller (pages p).order p)
  | .reserved | .tail => none

section

variable (i : PmmInv w none)

include i

/-- Owning a frame is owning the block that holds it. -/
theorem PmmInv.owns_iff {o : Owner} :
    Owns w o f ↔ ∃ p k, head w.pmm.pages p = some k ∧ InBlock f p k ∧
      ownerOf w.pmm.pages p = some o := by
  constructor
  · intro h
    cases o with
    | free z k p =>
      obtain ⟨hz, hs, rfl⟩ := (i.lists z).mem_iff.1 h.1
      have hz : pmmZoneOfPfn p = z := hz
      exact ⟨p, _, head_eq_some.2 ⟨.inl hs, rfl⟩, h.2, by simp [ownerOf, hs, hz]⟩
    | cache z =>
      obtain ⟨hz, hs, hk⟩ := (i.cached z).mem_iff.1 h
      have hz : pmmZoneOfPfn f = z := hz
      exact ⟨f, 0, head_eq_some.2 ⟨.inr (.inl hs), hk⟩, inBlock_self f 0, by simp [ownerOf, hs, hz]⟩
    | caller k p =>
      obtain ⟨hs, rfl⟩ := i.live_iff.1 h.1
      exact ⟨p, _, head_eq_some.2 ⟨.inr (.inr hs), rfl⟩, h.2, by simp [ownerOf, hs]⟩
  · rintro ⟨p, k, hhead, hf, ho⟩
    obtain ⟨hs | hs | hs, rfl⟩ := head_eq_some.1 hhead
    · simp only [ownerOf, hs, Option.some.injEq] at ho
      subst ho
      exact ⟨(i.lists _).mem_iff.2 ⟨rfl, hs, rfl⟩, hf⟩
    · simp only [ownerOf, hs, Option.some.injEq] at ho
      subst ho
      have hk : (w.pmm.pages p).order = 0 := i.cached_order ⟨hs, rfl⟩
      rw [hk, DyadicBlocks.inBlock_zero] at hf
      subst hf
      exact (i.cached _).mem_iff.2 ⟨rfl, hs, hk⟩
    · simp only [ownerOf, hs, Option.some.injEq] at ho
      subst ho
      exact ⟨i.live_iff.2 ⟨hs, rfl⟩, hf⟩

/-- A frame is in some block exactly when it was added. -/
theorem PmmInv.exists_head_iff :
    (∃ p k, head w.pmm.pages p = some k ∧ InBlock f p k) ↔ f ∈ w.added := by
  rw [i.added_iff]
  constructor
  · rintro ⟨p, k, hp, hf⟩ hres
    by_cases hfp : f = p
    · subst hfp; rw [head_eq_none.2 (.inl hres)] at hp; cases hp
    · have := (i.tiling.block_tail hp hf hfp).1
      rw [IsTail, hres] at this
      cases this
  · intro hres
    cases hs : head w.pmm.pages f with
    | some k => exact ⟨f, k, hs, inBlock_self f k⟩
    | none =>
      have htail := (head_eq_none.1 hs).resolve_left hres
      exact i.tiling.cover htail (by simp)

/-- The head of a block of the tiling, with its state. -/
theorem PmmInv.isBlock {k : ℕ} {s : PageState}
    (hs : s = .buddy ∨ s = .pcp ∨ s = .allocated) (h : Labelled w.pmm.pages s k p) :
    IsBlock w.pmm.pages s k p := by
  have hhead : head w.pmm.pages p = some k := head_eq_some.2 ⟨by rw [h.1]; exact hs, h.2⟩
  exact ⟨h.1, h.2, i.tiling.order_le hhead, i.tiling.aligned hhead,
    fun f hf hne => (i.tiling.block_tail hhead hf hne).1⟩

/-- The invariant between calls is the partition. -/
theorem PmmInv.framePartition : FramePartition w where
  owner := by
    intro f hf
    obtain ⟨p, k, hp, hin⟩ := i.exists_head_iff.2 hf
    obtain ⟨o, ho⟩ : ∃ o, ownerOf w.pmm.pages p = some o := by
      obtain ⟨hs | hs | hs, -⟩ := head_eq_some.1 hp <;> simp [ownerOf, hs]
    refine ⟨o, i.owns_iff.2 ⟨p, k, hp, hin, ho⟩, fun o' h' => ?_⟩
    obtain ⟨q, j, hq, hin', ho'⟩ := i.owns_iff.1 h'
    rw [i.tiling.head_eq hq hp hin' hin, ho] at ho'
    exact (Option.some.inj ho').symm
  owned := by
    intro o f h
    obtain ⟨p, k, hp, hin, -⟩ := i.owns_iff.1 h
    exact i.exists_head_iff.1 ⟨p, k, hp, hin⟩
  free := fun z k p h =>
    have hb := (i.lists z).mem_iff.1 h
    ⟨hb.1, count_eq_one_of_mem ((i.lists z).nodup k) h, i.isBlock (.inl rfl) hb.2⟩
  cached := fun z p h =>
    have hb := (i.cached z).mem_iff.1 h
    ⟨hb.1, count_eq_one_of_mem (i.cached z).nodup h, i.isBlock (.inr (.inl rfl)) hb.2⟩
  live := fun p k h => ⟨count_eq_one_of_mem i.live_nodup h,
    i.isBlock (.inr (.inr rfl)) (i.live_iff.1 h)⟩
  live_disjoint := by
    intro p k q j f hp hq hf hf'
    obtain ⟨hs, rfl⟩ := i.live_iff.1 hp
    obtain ⟨hs', rfl⟩ := i.live_iff.1 hq
    have hpq := i.tiling.head_eq (head_eq_some.2 ⟨.inr (.inr hs), rfl⟩)
      (head_eq_some.2 ⟨.inr (.inr hs'), rfl⟩) hf hf'
    rw [hpq]
  freeBlocks_eq := fun z => (i.lists z).freeBlocks_eq
  freePages_eq := i.freePages_eq
  cached_eq := fun z => (i.cached z).count_eq
  managed_eq := fun z => by simpa using i.managed_eq z

end

/-- **Every frame has one owner.** From an array of `RESERVED` frames and empty zones and caches,
every sequence of calls leaves each frame that was added with exactly one owner, and the counters
with the numbers of what they count. -/
theorem pmm_framePartition (spans : List PmmSpan) (pages : PageArray) (maxPfn : ℕ) (w : PmmWorld)
    (hres : ∀ f, (pages f).state = .reserved)
    (hrun : Run PmmStep (.init spans pages maxPfn) w) : FramePartition w :=
  (hrun.invariant (PmmInv.init spans maxPfn hres)
    PmmInv.step).framePartition

/-- One chunk of `RESERVED` frames, of which the first four are added. -/
def fourFrames : Pmm :=
  (pmmAddFreeRange (.init [⟨0, 1024⟩] (fun _ => {}) 1024) 0 0x4000).2

/-- Four frames are added and two of them allocated as one block. -/
theorem run_fourFrames : Run PmmStep (.init [⟨0, 1024⟩] (fun _ => {}) 1024)
    ⟨(pmmAllocPages fourFrames 1 0).2, [(0, 1)], ∅ ∪ rangeFrames 0 0x4000⟩ := by
  have hadd : pmmAddFreeRange (.init [⟨0, 1024⟩] (fun _ => {}) 1024) 0 0x4000 =
      (.ok, fourFrames) := Prod.ext (by decide +kernel) rfl
  have halloc : (pmmAllocPages fourFrames 1 0) =
      (.ok (pageFromPfn 0), (pmmAllocPages fourFrames 1 0).2) :=
    Prod.ext (by decide +kernel) rfl
  have hstep := PmmStep.alloc (w := ⟨fourFrames, [], ∅ ∪ rangeFrames 0 0x4000⟩) halloc
  exact .tail (.single (.addFreeRange hadd)) hstep

/-- The block is live and the rest is free. -/
theorem pmm_framePartition_fourFrames :
    ∃ s : Pmm, Run PmmStep (.init [⟨0, 1024⟩] (fun _ => {}) 1024)
        ⟨s, [(0, 1)], ∅ ∪ rangeFrames 0 0x4000⟩ ∧
      (s.zones .dma32).freeList 1 = [2] ∧ FramePartition ⟨s, [(0, 1)], ∅ ∪ rangeFrames 0 0x4000⟩ :=
  ⟨_, run_fourFrames, by decide +kernel, pmm_framePartition _ _ _ _ (fun _ => rfl) run_fourFrames⟩

end Bongos.Mm
