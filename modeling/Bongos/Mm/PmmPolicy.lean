import Bongos.Mm.PmmPartition

/-!
# Which block a request gets

`pmmAllocPages` goes through the zones that the flags allow, NORMAL before DMA32, and takes the
block from the first that can serve the request. A request for a single frame goes through the cache
of the zone, which is refilled in batches: the frames of a batch are taken one after the other from
the smallest free blocks, and the last of them is the one that the caller gets. A request that no
zone can serve changes nothing.
-/

namespace Bongos.Mm

open List Function

open DyadicBlocks (InBlock inBlock_self)

variable {s s' : Pmm} {live : List (ℕ × ℕ)} {added : Set ℕ} {z : PmmZoneId} {order pfn n : ℕ}
  {flags : PmmFlags} {pages : PageArray} {zone zone' : PmmZone}

/-! ## The policy -/

/-- The zone has a free block of the order or of a larger one. -/
def HasFree (zone : PmmZone) (order : ℕ) : Prop :=
  ∃ k, order ≤ k ∧ k ≤ PMM_MAX_ORDER ∧ zone.freeList k ≠ []

/-- The block at `pfn` is free, and of the smallest order that is sufficient and has a free
block. -/
def FromSmallest (zone : PmmZone) (order pfn : ℕ) : Prop :=
  ∃ k, order ≤ k ∧ k ≤ PMM_MAX_ORDER ∧ pfn ∈ zone.freeList k ∧ ∀ j, order ≤ j → j < k →
    zone.freeList j = []

/-- The zone has a block for the request: for a single frame also a cached one. -/
def CanServe (s : Pmm) (order : ℕ) (z : PmmZoneId) : Prop :=
  HasFree (s.zones z) order ∨ order = 0 ∧ (s.cache z).pages ≠ []

/-- A refill: up to `n` single frames go to the cache, each from the smallest order that has a free
block then. -/
inductive Refill (z : PmmZoneId) : ℕ → Pmm → Pmm → Prop
  | full {s : Pmm} : Refill z 0 s s
  | dry {s : Pmm} {n : ℕ} (h : ¬ HasFree (s.zones z) 0) : Refill z (n + 1) s s
  | take {s s' : Pmm} {n pfn : ℕ} {pages : PageArray} {zone : PmmZone}
      (h : buddyAllocBlock s.pages (s.zones z) 0 = some (pfn, pages, zone))
      (hsmall : FromSmallest (s.zones z) 0 pfn)
      (hrest : Refill z n { s with
        pages := setState pages pfn .pcp
        zones := update s.zones z zone
        cache := update s.cache z ⟨pfn :: (s.cache z).pages, (s.cache z).count + 1⟩ } s') :
      Refill z (n + 1) s s'

/-- Where the block comes from. -/
def ServedFrom (s : Pmm) (order : ℕ) (z : PmmZoneId) (pfn : ℕ) : Prop :=
  if order = 0 then
    (s.cache z).pages.head? = some pfn ∨
      (s.cache z).pages = [] ∧ ∃ t, Refill z PMM_PCP_BATCH s t ∧ (t.cache z).pages.head? = some pfn
  else FromSmallest (s.zones z) order pfn

/-- The zones that the flags allow: DMA32 always, and NORMAL if they do not ask for DMA32. -/
def Eligible (flags : PmmFlags) (z : PmmZoneId) : Prop :=
  z = .normal → flags &&& PMM_FLAG_DMA32 = 0

/-- The first eligible zone that can serve the request, where NORMAL comes before DMA32. -/
structure FirstServing (s : Pmm) (order : ℕ) (flags : PmmFlags) (z : PmmZoneId) : Prop where
  eligible : Eligible flags z
  serves : CanServe s order z
  first : z = .dma32 → Eligible flags .normal → ¬ CanServe s order .normal

/-- What a request does in the state `s`. -/
structure AllocPolicy (s : Pmm) (order : ℕ) (flags : PmmFlags) : Prop where
  fails_iff : (pmmAllocPages s order flags).1.isOk = false ↔
    ∀ z, Eligible flags z → ¬ CanServe s order z
  fail_same : ∀ e s', pmmAllocPages s order flags = (.error e, s') → e = .errNoMemory ∧ s' = s
  served : ∀ page s', pmmAllocPages s order flags = (.ok page, s') → ∃ pfn z,
    page = pageFromPfn pfn ∧ FirstServing s order flags z ∧ ServedFrom s order z pfn ∧
    2^order ∣ pfn ∧ (∀ f, InBlock f pfn order → pmmZoneOfPfn f = z) ∧
    (flags &&& PMM_FLAG_DMA32 ≠ 0 → ∀ f, InBlock f pfn order → f * 4096 < 2^32)

/-! ## The free lists -/

/-- The order at which the search stops is the smallest. -/
theorem firstFreeOrder_smallest {k j : ℕ} (h : firstFreeOrder zone order = some k) (hj : order ≤ j)
    (hjk : j < k) : zone.freeList j = [] := by
  obtain ⟨-, hmax, -⟩ := firstFreeOrder_eq_some h
  have hcount : PMM_ORDER_COUNT = PMM_MAX_ORDER + 1 := rfl
  obtain ⟨-, before, after, hsplit, hbefore⟩ := find?_eq_some_iff_append.1 h
  -- `j` stands before `k` in the ascending list of the orders.
  have hjmem : j ∈ before ++ k :: after := by
    rw [← hsplit]
    exact mem_range'_1.2 ⟨hj, by omega⟩
  have hsorted : (before ++ k :: after).Pairwise (· < ·) := by
    rw [← hsplit]
    exact pairwise_lt_range'
  rcases mem_append.1 hjmem with hj' | hj'
  · simpa using hbefore j hj'
  · rcases mem_cons.1 hj' with rfl | hafter
    · exact absurd hjk (Nat.lt_irrefl j)
    · have hkj := rel_of_pairwise_cons (pairwise_append.1 hsorted).2.1 hafter
      omega

theorem buddyAllocBlock_none_iff : buddyAllocBlock pages zone order = none ↔
    ¬ HasFree zone order := by
  rw [buddyAllocBlock_eq_none]
  constructor
  · rintro h ⟨k, hle, hmax, hne⟩
    exact hne (h k hle hmax)
  · intro h k hle hmax
    exact not_not.1 fun hne => h ⟨k, hle, hmax, hne⟩

theorem fromSmallest_of_buddyAllocBlock {pages' : PageArray}
    (h : buddyAllocBlock pages zone order = some (pfn, pages', zone')) :
    FromSmallest zone order pfn := by
  obtain ⟨k, hk, h⟩ := Option.bind_eq_some_iff.1 h
  obtain ⟨p, hp, h⟩ := Option.bind_eq_some_iff.1 h
  obtain ⟨hle, hmax, -⟩ := firstFreeOrder_eq_some hk
  have hpfn : p = pfn := congrArg Prod.fst (Option.some.inj h)
  exact ⟨k, hle, hmax, hpfn ▸ mem_of_mem_head? hp, fun j => firstFreeOrder_smallest hk⟩

/-! ## The cache -/

theorem refill_pmmCacheRefill (z : PmmZoneId) (n : ℕ) (s : Pmm) :
    Refill z n s (pmmCacheRefill z n s) := by
  induction n generalizing s with
  | zero => exact .full
  | succ n ih =>
    rw [pmmCacheRefill]
    cases h : buddyAllocBlock s.pages (s.zones z) 0 with
    | none => exact .dry (buddyAllocBlock_none_iff.1 h)
    | some r =>
      exact .take h (fromSmallest_of_buddyAllocBlock h) (ih _)

/-- A refill only adds to the cache, and adds something if there is a free block. -/
theorem Refill.count_le (h : Refill z n s s') : (s.cache z).count ≤ (s'.cache z).count := by
  induction h with
  | full => exact le_rfl
  | dry _ => exact le_rfl
  | take _ _ _ ih =>
    dsimp only at ih
    rw [update_self] at ih
    exact (Nat.le_succ _).trans ih

theorem Refill.count_pos (h : Refill z (n + 1) s s') (hfree : HasFree (s.zones z) 0) :
    0 < (s'.cache z).count := by
  cases h with
  | dry hdry => exact absurd hfree hdry
  | take _ _ hrest =>
    have hle := hrest.count_le
    dsimp only at hle
    rw [update_self] at hle
    exact (Nat.succ_pos _).trans_le hle

/-- The cache from which a single frame is taken. If the zone can serve the request, it is not empty
after the refill. -/
theorem cache_filled (z : PmmZoneId) (i : PmmInv ⟨s, live, added⟩ none) :
    ∃ t, (if (s.cache z).count = 0 then pmmCacheRefill z PMM_PCP_BATCH s else s) = t ∧
      PmmInv ⟨t, live, added⟩ none ∧
      (¬ CanServe s 0 z ∧ t = s ∧ (s.cache z).count = 0 ∨ CanServe s 0 z ∧ (t.cache z).count ≠ 0 ∧
        ∀ pfn, (t.cache z).pages.head? = some pfn → ServedFrom s 0 z pfn) := by
  have hcount : (s.cache z).count = (s.cache z).pages.length := (i.cached z).count_eq
  split_ifs with hempty
  · have hnil : (s.cache z).pages = [] := length_eq_zero_iff.1 (hcount ▸ hempty)
    have hrefill := refill_pmmCacheRefill z PMM_PCP_BATCH s
    refine ⟨_, rfl, (pmmCacheRefill_inv i z PMM_PCP_BATCH).1, ?_⟩
    by_cases hfree : HasFree (s.zones z) 0
    · have hpos := Refill.count_pos hrefill hfree
      exact .inr ⟨.inl hfree, hpos.ne', fun pfn hpfn => .inr ⟨hnil, _, hrefill, hpfn⟩⟩
    · have hnone : buddyAllocBlock s.pages (s.zones z) 0 = none := buddyAllocBlock_none_iff.2 hfree
      refine .inl ⟨?_, by rw [PMM_PCP_BATCH, pmmCacheRefill, hnone], hempty⟩
      rintro (h | ⟨-, h⟩)
      · exact hfree h
      · exact h hnil
  · have hne : (s.cache z).pages ≠ [] := fun h => hempty (by rw [hcount, h, length_nil])
    exact ⟨s, rfl, i, .inr ⟨.inr ⟨rfl, hne⟩, hempty, fun pfn hpfn => .inl hpfn⟩⟩

/-- A single frame from one zone. -/
theorem pmmCacheAllocLocked_spec (i : PmmInv ⟨s, live, added⟩ none) :
    (¬ CanServe s 0 z ∧ pmmCacheAllocLocked s z = (none, s)) ∨
      ∃ pfn s', pmmCacheAllocLocked s z = (some pfn, s') ∧ CanServe s 0 z ∧ ServedFrom s 0 z pfn ∧
        pmmZoneOfPfn pfn = z := by
  unfold pmmCacheAllocLocked
  obtain ⟨t, ht, i', ⟨hno, rfl, hempty⟩ | ⟨hcan, hne, hserved⟩⟩ := cache_filled z i
  · rw [ht]
    exact .inl ⟨hno, if_pos hempty⟩
  · have hcount := (i'.cached z).count_eq
    obtain ⟨pfn, rest, hpages⟩ : ∃ pfn rest, (t.cache z).pages = pfn :: rest :=
      exists_cons_of_length_pos (by rw [← hcount]; exact Nat.pos_of_ne_zero hne)
    rw [ht]
    refine .inr ⟨pfn, { t with cache := update t.cache z ⟨rest, (t.cache z).count - 1⟩ }, ?_, hcan,
      hserved pfn (by rw [hpages]; rfl), ((i'.cached z).mem_iff.1 (hpages ▸ mem_cons_self)).1⟩
    rw [if_neg hne, hpages]

/-! ## The zones in order -/

/-- The attempt on one zone. -/
theorem pmmAllocFrom_spec (order : ℕ) (z : PmmZoneId) (i : PmmInv ⟨s, live, added⟩ none) :
    (¬ CanServe s order z ∧ pmmAllocFrom s order z = (none, s)) ∨
      ∃ pfn s', pmmAllocFrom s order z = (some pfn, s') ∧ CanServe s order z ∧
        ServedFrom s order z pfn ∧ pmmZoneOfPfn pfn = z := by
  unfold pmmAllocFrom
  by_cases h0 : order = 0
  · rw [h0, if_pos rfl]
    exact pmmCacheAllocLocked_spec i
  · rw [if_neg h0]
    cases h : buddyAllocBlock s.pages (s.zones z) order with
    | none =>
      refine .inl ⟨?_, rfl⟩
      rintro (hfree | ⟨h0', -⟩)
      · exact buddyAllocBlock_none_iff.1 h hfree
      · exact h0 h0'
    | some r =>
      obtain ⟨pfn, pages, zone⟩ := r
      have hsmall := fromSmallest_of_buddyAllocBlock h
      obtain ⟨k, hle, hmax, hmem, -⟩ := id hsmall
      refine .inr ⟨pfn, _, rfl, .inl ⟨k, hle, hmax, ne_nil_of_mem hmem⟩, ?_, (i.takeFree h).1⟩
      rw [ServedFrom, if_neg h0]
      exact hsmall

/-- The loop over the zones stops at the first that can serve the request. -/
theorem pmmAllocLoop_spec (order : ℕ) (zones : List PmmZoneId) (i : PmmInv ⟨s, live, added⟩ none) :
    ((∀ z ∈ zones, ¬ CanServe s order z) ∧ pmmAllocLoop order zones s = (none, s)) ∨
      ∃ pfn s' z, pmmAllocLoop order zones s = (some pfn, s') ∧ z ∈ zones ∧ CanServe s order z ∧
        (∀ z' ∈ zones.takeWhile (· ≠ z), ¬ CanServe s order z') ∧ ServedFrom s order z pfn ∧
        pmmZoneOfPfn pfn = z := by
  induction zones with
  | nil => exact .inl ⟨fun z hz => absurd hz not_mem_nil, rfl⟩
  | cons z zs ih =>
    rw [pmmAllocLoop]
    rcases pmmAllocFrom_spec order z i with ⟨hno, hfrom⟩ | ⟨pfn, s', hfrom, hcan, hserved, hzone⟩
    · rw [hfrom]
      rcases ih with ⟨hnone, hloop⟩ | ⟨pfn, s', z', hloop, hmem, hcan, hbefore, hserved⟩
      · exact .inl ⟨forall_mem_cons.2 ⟨hno, hnone⟩, hloop⟩
      · have hne : z ≠ z' := fun e => hno (e ▸ hcan)
        refine .inr ⟨pfn, s', z', hloop, mem_cons_of_mem z hmem, hcan, ?_, hserved⟩
        rw [takeWhile_cons_of_pos (by simpa using hne)]
        exact forall_mem_cons.2 ⟨hno, hbefore⟩
    · rw [hfrom]
      refine .inr ⟨pfn, s', z, rfl, mem_cons_self, hcan, ?_, hserved, hzone⟩
      simp

theorem mem_pmmZoneListFor : z ∈ pmmZoneListFor flags ↔ Eligible flags z := by
  rw [pmmZoneListFor, Eligible]
  split_ifs with h <;> cases z <;> simp_all

/-- NORMAL is asked before DMA32. -/
theorem normal_mem_takeWhile (h : Eligible flags .normal) :
    PmmZoneId.normal ∈ (pmmZoneListFor flags).takeWhile (· ≠ .dma32) := by
  rw [pmmZoneListFor, if_neg (not_not.2 (h rfl))]
  decide

/-- What a request does in a state with the invariant. -/
theorem PmmInv.allocPolicy (i : PmmInv ⟨s, live, added⟩ none) (horder : order ≤ PMM_MAX_ORDER)
    (hflags : flags &&& ~~~PMM_FLAGS_VALID = 0) : AllocPolicy s order flags := by
  have hvalid : ¬ (order > PMM_MAX_ORDER ∨ flags &&& ~~~PMM_FLAGS_VALID ≠ 0) :=
    not_or.2 ⟨Nat.not_lt.2 horder, not_not.2 hflags⟩
  rcases pmmAllocLoop_spec order (pmmZoneListFor flags) i with
    ⟨hnone, hloop⟩ | ⟨pfn, s', z, hloop, hmem, hcan, hbefore, hserved, hzone⟩
  · have heq : pmmAllocPages s order flags = (.error .errNoMemory, s) := by
      rw [pmmAllocPages, if_neg hvalid, hloop]
    refine ⟨?_, ?_, ?_⟩
    · rw [heq]
      exact ⟨fun _ z hz => hnone z (mem_pmmZoneListFor.2 hz), fun _ => rfl⟩
    · rw [heq]
      rintro e s' ⟨⟩
      exact ⟨rfl, rfl⟩
    · rw [heq]
      rintro page s' ⟨⟩
  · have heq : pmmAllocPages s order flags = (.ok (pageFromPfn pfn),
        { s' with pages := update s'.pages pfn (allocatedHead (s'.pages pfn) order) }) := by
      rw [pmmAllocPages, if_neg hvalid, hloop]
    -- The block is live after the call, which makes it aligned.
    have hlive := ((pmmAllocPages_inv i).2 _ heq).1
    rw [pageToPfn_pageFromPfn] at hlive
    obtain ⟨-, -, horder', hal, -⟩ := hlive.isBlock (Or.inr (Or.inr rfl))
      (hlive.live_iff.1 mem_cons_self)
    have hin : ∀ f, InBlock f pfn order → pmmZoneOfPfn f = z := fun f hf =>
      (zone_of_inBlock horder' hal hf).trans hzone
    have hel := mem_pmmZoneListFor.1 hmem
    refine ⟨?_, ?_, ?_⟩
    · rw [heq]
      exact iff_of_false (by rintro ⟨⟩) fun h => h z hel hcan
    · rw [heq]
      rintro e s' ⟨⟩
    · rw [heq]
      rintro page s' ⟨⟩
      refine ⟨pfn, z, rfl, ⟨hel, hcan, fun hz h => ?_⟩, hserved, hal, hin, fun hdma f hf => ?_⟩
      · exact hbefore _ (hz ▸ normal_mem_takeWhile h)
      · -- With the flag, DMA32 is the only zone.
        have hlow := hin f hf
        rw [pmmZoneOfPfn] at hlow
        split_ifs at hlow with hlt
        · rw [PMM_ZONE_DMA32_END_PFN] at hlt
          omega
        · exact absurd (hel hlow.symm) hdma

/-! ## Every reachable state -/

/-- All frames of the block lie in one zone. -/
def InOneZone (p k : ℕ) : Prop :=
  ∀ f g, InBlock f p k → InBlock g p k → pmmZoneOfPfn f = pmmZoneOfPfn g

theorem IsBlock.inOneZone {st : PageState} {k p : ℕ} (h : IsBlock pages st k p) : InOneZone p k :=
  fun _ _ hf hg => (zone_of_inBlock h.order_le h.aligned hf).trans
    (zone_of_inBlock h.order_le h.aligned hg).symm

/-- **Requests are served by the policy.** In every reachable state a valid request follows
`AllocPolicy`, and no block, free or live, lies in both zones. -/
theorem pmmAllocPages_policy (spans : List PmmSpan) (pages : PageArray) (maxPfn : ℕ) (w : PmmWorld)
    (order : ℕ) (flags : PmmFlags) (hres : ∀ f, (pages f).state = .reserved)
    (hrun : Run PmmStep (.init spans pages maxPfn) w) (horder : order ≤ PMM_MAX_ORDER)
    (hflags : flags &&& ~~~PMM_FLAGS_VALID = 0) :
    AllocPolicy w.pmm order flags ∧
      (∀ z k p, p ∈ (w.pmm.zones z).freeList k → InOneZone p k) ∧
      ∀ p k, (p, k) ∈ w.live → InOneZone p k := by
  have i := hrun.invariant (PmmInv.init spans maxPfn hres) PmmInv.step
  have hpart := i.framePartition
  exact ⟨i.allocPolicy horder hflags, fun z k p hp => (hpart.free z k p hp).2.2.inOneZone,
    fun p k hp => (hpart.live p k hp).2.inOneZone⟩

/-- Frames 1 to 3 are added, which are a block of one frame and a block of two. -/
def threeFrames : Pmm :=
  (pmmAddFreeRange (.init [⟨0, 1024⟩] (fun _ => {}) 1024) 0x1000 0x3000).2

theorem run_threeFrames : Run PmmStep (.init [⟨0, 1024⟩] (fun _ => {}) 1024)
    ⟨threeFrames, [], ∅ ∪ rangeFrames 0x1000 0x3000⟩ := by
  have hadd : pmmAddFreeRange (.init [⟨0, 1024⟩] (fun _ => {}) 1024) 0x1000 0x3000 =
      (.ok, threeFrames) := Prod.ext (by decide +kernel) rfl
  exact .single (.addFreeRange (w := .init [⟨0, 1024⟩] (fun _ => {}) 1024) hadd)

/-- The two requests that the three frames can serve follow the policy. -/
theorem pmmAllocPages_policy_threeFrames :
    AllocPolicy threeFrames 1 PMM_FLAG_DMA32 ∧ (pmmAllocPages threeFrames 1 PMM_FLAG_DMA32).1 =
      .ok (pageFromPfn 2) :=
  ⟨(pmmAllocPages_policy _ _ _ _ 1 PMM_FLAG_DMA32 (fun _ => rfl) run_threeFrames (by decide)
    (by decide)).1, by decide +kernel⟩

/-- A request for a single frame takes all three frames to the cache and gets the last of them,
which was in the block of two although a block of one was free. -/
theorem single_not_smallest : ∃ w, Run PmmStep (.init [⟨0, 1024⟩] (fun _ => {}) 1024) w ∧
    (w.pmm.cache .dma32).pages = [] ∧ (w.pmm.zones .dma32).freeList 0 = [1] ∧
    (w.pmm.zones .dma32).freeList 1 = [2] ∧ (pmmAllocPages w.pmm 0 0).1 = .ok (pageFromPfn 3) ∧
    InBlock 3 2 1 ∧ ¬ FromSmallest (w.pmm.zones .dma32) 0 3 := by
  have hlist : (threeFrames.zones .dma32).freeList 0 = [1] := by decide +kernel
  refine ⟨_, run_threeFrames, by decide +kernel,
    hlist, by decide +kernel, by decide +kernel, by decide, ?_⟩
  rintro ⟨k, -, -, hmem, hsmall⟩
  cases k with
  | zero =>
    rw [show (threeFrames.zones .dma32).freeList 0 = [1] from hlist] at hmem
    exact absurd hmem (by decide)
  | succ k =>
    have hnil : (threeFrames.zones .dma32).freeList 0 = [] := hsmall 0 le_rfl (Nat.succ_pos k)
    rw [hlist] at hnil
    exact cons_ne_nil _ _ hnil

end Bongos.Mm
