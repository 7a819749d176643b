import Bongos.Mm.PmmAccounting
import Bongos.Mm.PmmPolicy
import Bongos.Mm.PmmSpans

/-!
# Adding a range

`pmmAddFreeRange` checks every frame of the range before it changes anything. It then frees the
range in blocks (`addBlocks`): the order of a block is given by the alignment of its first frame, by
the largest order, and by what is left of the range. The blocks partition the range, and a block may
merge with free neighbours as soon as it is freed, also with the block before it.
-/

namespace Bongos.Mm

open Bongos.Core List
open DyadicBlocks (InBlock inBlock_self)

variable {s s' : Pmm} {w : PmmWorld} {live : List (ℕ × ℕ)} {added : Set ℕ}
  {pfn endPfn physBase length f : ℕ} {z : PmmZoneId}

/-! ## The blocks of a range -/

/-- The blocks that the loop of `pmmAddFreeRange` frees, as pairs of first frame and order. -/
def addBlocks (pfn endPfn : ℕ) : List (ℕ × ℕ) :=
  if pfn < endPfn then (pfn, addOrder pfn endPfn) :: addBlocks (pfn + 2^addOrder pfn endPfn) endPfn
  else []
termination_by endPfn - pfn
decreasing_by
  have := Nat.two_pow_pos (addOrder pfn endPfn)
  omega

theorem pmmAddFrom_eq : pmmAddFrom s pfn endPfn =
      (addBlocks pfn endPfn).foldl (fun s b => pmmAddBlock s b.1 b.2) s := by
  fun_induction pmmAddFrom s pfn endPfn with
  | case1 s pfn hlt ih => rw [addBlocks, if_pos hlt, foldl_cons, ih]
  | case2 s pfn hge => rw [addBlocks, if_neg hge, foldl_nil]

/-- A list of aligned blocks that hold each frame of `[a, b)` once and no other. -/
structure BlockPartition (blocks : List (ℕ × ℕ)) (a b : ℕ) : Prop where
  order_le : ∀ c ∈ blocks, c.2 ≤ PMM_MAX_ORDER
  aligned : ∀ c ∈ blocks, 2^c.2 ∣ c.1
  nodup : blocks.Nodup
  inside : ∀ c ∈ blocks, a ≤ c.1 ∧ c.1 + 2^c.2 ≤ b
  unique : ∀ f, a ≤ f → f < b → ∃! c, c ∈ blocks ∧ InBlock f c.1 c.2

theorem addBlocks_partition : BlockPartition (addBlocks pfn endPfn) pfn endPfn := by
  fun_induction addBlocks pfn endPfn with
  | case1 pfn hlt ih =>
    obtain ⟨hk, hal, hfit⟩ := addOrder_spec hlt
    refine ⟨forall_mem_cons.2 ⟨hk, ih.order_le⟩, forall_mem_cons.2 ⟨hal, ih.aligned⟩, ?_, ?_, ?_⟩
    · refine nodup_cons.2 ⟨fun hmem => ?_, ih.nodup⟩
      have hle := (ih.inside _ hmem).1
      omega
    · refine forall_mem_cons.2 ⟨⟨le_rfl, hfit⟩, fun c hc => ?_⟩
      obtain ⟨hlo, hhi⟩ := ih.inside c hc
      exact ⟨by omega, hhi⟩
    · intro f hle hf
      -- A frame of the first block is in no later one.
      by_cases hfirst : f < pfn + 2^addOrder pfn endPfn
      · refine ⟨(pfn, addOrder pfn endPfn), ⟨mem_cons_self, hle, hfirst⟩, fun c ⟨hc, hin⟩ => ?_⟩
        rcases mem_cons.1 hc with rfl | hc
        · rfl
        · have hlo := (ih.inside c hc).1
          have := hin.1
          omega
      · obtain ⟨c, ⟨hc, hin⟩, huniq⟩ := ih.unique f (by omega) hf
        refine ⟨c, ⟨mem_cons_of_mem _ hc, hin⟩, fun c' ⟨hc', hin'⟩ => ?_⟩
        rcases mem_cons.1 hc' with rfl | hc'
        · exact absurd hin'.2 hfirst
        · exact huniq c' ⟨hc', hin'⟩
  | case2 pfn hge =>
    refine ⟨by simp, by simp, nodup_nil, by simp, fun f hle hf => ?_⟩
    omega

/-! ## The counters -/

/-- The number of frames of `[a, b)` in a zone. -/
def framesInZone (z : PmmZoneId) (a b : ℕ) : ℕ :=
  (List.range' a (b - a)).countP fun f => pmmZoneOfPfn f = z

theorem encard_framesInZone (a b : ℕ) :
    ({f | a ≤ f ∧ f < b} ∩ zoneFrames z).encard = framesInZone z a b := by
  have hset : {f | a ≤ f ∧ f < b} ∩ zoneFrames z =
      ↑((List.range' a (b - a)).filter fun f => pmmZoneOfPfn f = z).toFinset := by
    ext f
    simp only [zoneFrames, Set.mem_inter_iff, Set.mem_ofPred_eq, coe_toFinset, mem_filter,
      mem_range'_1, decide_eq_true_eq]
    exact and_congr_left' (by omega)
  have hnodup : ((List.range' a (b - a)).filter fun f => pmmZoneOfPfn f = z).Nodup :=
    List.Nodup.filter _ nodup_range'
  rw [hset, Set.encard_coe_eq_coe_finsetCard, toFinset_card_of_nodup hnodup, framesInZone,
    countP_eq_length_filter]

theorem pmmAddFrom_cache (s : Pmm) (pfn endPfn : ℕ) :
    (pmmAddFrom s pfn endPfn).cache = s.cache := by
  fun_induction pmmAddFrom s pfn endPfn with
  | case1 s pfn hlt ih => exact ih
  | case2 s pfn hge => rfl

/-! ## Free frames -/

/-- The frame is in a block on a free list. -/
def FreeFrame (s : Pmm) (f : ℕ) : Prop := ∃ z k p, p ∈ (s.zones z).freeList k ∧ InBlock f p k

/-- A frame that was added is free unless a cache or a caller has it. -/
theorem PmmInv.freeFrame_iff (i : PmmInv w none) : FreeFrame w.pmm f ↔
    f ∈ w.added ∧ (∀ z, f ∉ (w.pmm.cache z).pages) ∧ ∀ p k, (p, k) ∈ w.live → ¬ InBlock f p k := by
  have hpart := i.framePartition
  constructor
  · rintro ⟨z, k, p, hp, hf⟩
    have hfree : Owns w (.free z k p) f := ⟨hp, hf⟩
    have hmem := hpart.owned _ f hfree
    obtain ⟨o, -, huniq⟩ := hpart.owner f hmem
    have ho := huniq _ hfree
    refine ⟨hmem, fun z' hz' => ?_, fun p' k' hp' hf' => ?_⟩
    · have hcache : Owns w (.cache z') f := hz'
      exact Owner.noConfusion (ho.trans (huniq _ hcache).symm)
    · have hcaller : Owns w (.caller k' p') f := ⟨hp', hf'⟩
      exact Owner.noConfusion (ho.trans (huniq _ hcaller).symm)
  · rintro ⟨hmem, hcache, hlive⟩
    obtain ⟨o, ho, -⟩ := hpart.owner f hmem
    cases o with
    | free z k p => exact ⟨z, k, p, ho⟩
    | cache z => exact absurd ho (hcache z)
    | caller k p => exact absurd ho.2 (hlive p k ho.1)

/-! ## The call -/

/-- The frame has a `Page` record in the state `RESERVED`. -/
def ReservedFrame (s : Pmm) (f : ℕ) : Prop :=
  (∃ sp ∈ s.spans, sp.Has f) ∧ (s.pages f).state = .reserved

/-- Aligned to pages, and every frame of the range may be added. -/
def Addable (s : Pmm) (physBase length : ℕ) : Prop :=
  4096 ∣ physBase ∧ 4096 ∣ length ∧ ∀ f ∈ rangeFrames physBase length, ReservedFrame s f

/-- What the call does in the state of `w`. -/
structure AddExact (w : PmmWorld) (physBase length : ℕ) (st : Status) (s' : Pmm) : Prop where
  ok_iff : st = .ok ↔ Addable w.pmm physBase length
  fail_same : st ≠ .ok → st = .errInvalid ∧ s' = w.pmm
  /-- Exactly the frames of the range become free. -/
  free_iff : st = .ok → ∀ f, FreeFrame s' f ↔ FreeFrame w.pmm f ∨ f ∈ rangeFrames physBase length
  new : st = .ok → ∀ f ∈ rangeFrames physBase length, ¬ FreeFrame w.pmm f
  cache_same : s'.cache = w.pmm.cache
  /-- The callers' blocks stay as they are. -/
  live_same : ∀ p k, Labelled s'.pages .allocated k p ↔ (p, k) ∈ w.live
  /-- The frames are freed in aligned blocks, each frame in one of them. -/
  blocks : st = .ok →
    ∃ blocks, BlockPartition blocks (physBase >>> 12) ((physBase >>> 12) + (length >>> 12)) ∧
      s' = blocks.foldl (fun s b => pmmAddBlock s b.1 b.2) w.pmm
  managed : st = .ok → ∀ z, (s'.zones z).managedPages = (w.pmm.zones z).managedPages +
    framesInZone z (physBase >>> 12) ((physBase >>> 12) + (length >>> 12))

theorem lor_land_pageMask (a b : ℕ) : (a ||| b) &&& 0xFFF = 0 ↔ 4096 ∣ a ∧ 4096 ∣ b := by
  have hmask : (0xFFF : ℕ) = 2^12 - 1 := rfl
  rw [Nat.and_or_distrib_right, Nat.or_eq_zero_iff, hmask, Nat.and_two_pow_sub_one_eq_mod,
    Nat.and_two_pow_sub_one_eq_mod]
  exact and_congr (Nat.dvd_iff_mod_eq_zero ..).symm (Nat.dvd_iff_mod_eq_zero ..).symm

/-- The call succeeds exactly on a range that may be added, and then runs the loop. -/
theorem pmmAddFreeRange_eq (hvalid : ∀ f, pmmPfnValid s.spans f = true ↔ ∃ sp ∈ s.spans, sp.Has f)
    (physBase length : ℕ) :
    (Addable s physBase length ∧ pmmAddFreeRange s physBase length =
        (.ok, pmmAddFrom s (physBase >>> 12) ((physBase >>> 12) + (length >>> 12)))) ∨
      ¬ Addable s physBase length ∧ pmmAddFreeRange s physBase length = (.errInvalid, s) := by
  unfold pmmAddFreeRange
  by_cases hal : (physBase ||| length) &&& 0xFFF = 0
  · obtain ⟨hbase, hlength⟩ := (lor_land_pageMask _ _).1 hal
    rw [if_neg (not_not.2 hal)]
    by_cases hzero : length = 0
    · left
      rw [if_pos hzero, hzero, Nat.zero_shiftRight, Nat.add_zero, pmmAddFrom,
        if_neg (Nat.lt_irrefl _)]
      refine ⟨⟨hbase, dvd_zero _, fun f hf => ?_⟩, rfl⟩
      rw [rangeFrames, Set.mem_ofPred_eq, Nat.zero_shiftRight] at hf
      omega
    · -- A length of whole pages that is not zero is at least one page.
      rw [if_neg hzero, if_neg (by omega)]
      have hany : ((List.range' (physBase >>> 12)
          ((physBase >>> 12) + (length >>> 12) - (physBase >>> 12))).any fun p =>
            !pmmPfnValid s.spans p || (s.pages p).state != .reserved) = false ↔
              ∀ f ∈ rangeFrames physBase length, ReservedFrame s f := by
        rw [any_eq_false]
        refine forall_congr' fun f => ?_
        have hmem : f ∈ List.range' (physBase >>> 12)
            ((physBase >>> 12) + (length >>> 12) - (physBase >>> 12)) ↔
              f ∈ rangeFrames physBase length := by
          rw [mem_range'_1, Nat.add_sub_cancel_left]
          rfl
        rw [hmem, ReservedFrame, ← hvalid]
        simp
      by_cases hres : ∀ f ∈ rangeFrames physBase length, ReservedFrame s f
      · left
        rw [if_neg (by rw [hany.2 hres]; decide)]
        exact ⟨⟨hbase, hlength, hres⟩, rfl⟩
      · right
        rw [if_pos (by rw [← hany, Bool.not_eq_false] at hres; exact hres)]
        exact ⟨fun h => hres h.2.2, rfl⟩
  · right
    rw [if_pos hal]
    exact ⟨fun h => hal ((lor_land_pageMask _ _).2 ⟨h.1, h.2.1⟩), rfl⟩

/-- The call in a state with the invariant and a table of spans. -/
theorem PmmInv.addExact (i : PmmInv w none)
    (hvalid : ∀ f, pmmPfnValid w.pmm.spans f = true ↔ ∃ sp ∈ w.pmm.spans, sp.Has f)
    (physBase length : ℕ) :
    AddExact w physBase length (pmmAddFreeRange w.pmm physBase length).1
      (pmmAddFreeRange w.pmm physBase length).2 := by
  rcases pmmAddFreeRange_eq hvalid physBase length with ⟨hadd, heq⟩ | ⟨hadd, heq⟩
  · have hinv := (pmmAddFreeRange_inv i heq).1
    rw [heq]
    have hnew : ∀ f ∈ rangeFrames physBase length, f ∉ w.added := fun f hf hmem =>
      i.added_iff.1 hmem (hadd.2.2 f hf).2
    have hcache := pmmAddFrom_cache w.pmm (physBase >>> 12) ((physBase >>> 12) + (length >>> 12))
    have hpart := i.framePartition
    refine ⟨⟨fun _ => hadd, fun _ => rfl⟩, fun h => absurd rfl h, fun _ f => ?_,
      fun _ f hf hfree => ?_, hcache, fun p k => hinv.live_iff.symm, fun _ =>
        ⟨_, addBlocks_partition, pmmAddFrom_eq⟩, fun _ z => ?_⟩
    · rw [hinv.freeFrame_iff, i.freeFrame_iff]
      rw [hcache]
      constructor
      · rintro ⟨hmem | hmem, hrest⟩
        · exact .inl ⟨hmem, hrest⟩
        · exact .inr hmem
      · rintro (⟨hmem, hrest⟩ | hmem)
        · exact ⟨.inl hmem, hrest⟩
        · -- A new frame had no owner at all.
          refine ⟨.inr hmem, fun z hz => ?_, fun p k hp hf => ?_⟩
          · exact hnew f hmem (hpart.owned (.cache z) f hz)
          · exact hnew f hmem (hpart.owned (.caller k p) f ⟨hp, hf⟩)
    · exact hnew f hf (i.freeFrame_iff.1 hfree).1
    · have hcount := hinv.counted z
      have hdisj : Disjoint (w.added ∩ zoneFrames z) (rangeFrames physBase length ∩ zoneFrames z) :=
        Set.disjoint_left.2 fun f hf hf' => hnew f hf'.1 hf.1
      rw [if_pos rfl, Set.union_inter_distrib_right, Set.encard_union_eq hdisj, ← i.counted,
        rangeFrames, encard_framesInZone] at hcount
      exact_mod_cast hcount
  · rw [heq]
    have hne : Status.errInvalid ≠ .ok := by decide
    exact ⟨⟨fun h => absurd h hne, fun h => absurd h hadd⟩, fun _ => ⟨rfl, rfl⟩,
      fun h => absurd h hne, fun h => absurd h hne, rfl, fun p k => i.live_iff.symm,
      fun h => absurd h hne, fun h => absurd h hne⟩

/-! ## Every reachable state -/

/-- **Adding a range is all or nothing, and exact.** -/
theorem pmmAddFreeRange_exact (regions : List BootMemRegion) (m : PmmMap) (pages : PageArray)
    (w : PmmWorld) (physBase length : ℕ) (hcheck : bootMemMapCheck regions = .ok ())
    (hscan : pmmMapScan regions = .ok m) (hres : ∀ f, (pages f).state = .reserved)
    (hrun : Run PmmStep (.init m.spans pages m.maxPfn) w) :
    AddExact w physBase length (pmmAddFreeRange w.pmm physBase length).1
      (pmmAddFreeRange w.pmm physBase length).2 := by
  have hspans := (pmmMapScan_spec ((bootMemMapCheck_eq_ok regions).1 hcheck) hscan).spans
  obtain ⟨i, hsame⟩ := hrun.invariant (P := fun w => PmmInv w none ∧ w.pmm.spans = m.spans)
    ⟨PmmInv.init m.spans m.maxPfn hres, rfl⟩ fun h hstep => (h.1.next hstep).imp_right (·.trans h.2)
  exact i.addExact (fun f => by rw [hsame]; exact hspans.pmmPfnValid_iff f) physBase length

/-- Frames 256 to 1023 may be added after the scan of `twoRegions`. -/
theorem addExact_twoRegions : ∃ m, pmmMapScan twoRegions = .ok m ∧
    (pmmAddFreeRange (.init m.spans (fun _ => {}) m.maxPfn) 0x100000 0x300000).1 = .ok ∧
    AddExact (.init m.spans (fun _ => {}) m.maxPfn) 0x100000 0x300000
      (pmmAddFreeRange (.init m.spans (fun _ => {}) m.maxPfn) 0x100000 0x300000).1
      (pmmAddFreeRange (.init m.spans (fun _ => {}) m.maxPfn) 0x100000 0x300000).2 := by
  obtain ⟨m, hm⟩ : ∃ m, pmmMapScan twoRegions = .ok m := ⟨_, rfl⟩
  have hexact := pmmAddFreeRange_exact twoRegions m (fun _ => {}) _ 0x100000 0x300000
    (by decide +kernel) hm (fun _ => rfl) .refl
  refine ⟨m, hm, hexact.ok_iff.2 ⟨by decide, by decide, fun f hf => ⟨?_, rfl⟩⟩, hexact⟩
  have hspans : (pmmMapScan twoRegions).map PmmMap.spans = .ok [⟨0, 1024⟩, ⟨2048, 3072⟩] := by
    decide +kernel
  rw [hm] at hspans
  have hfirst : (⟨0, 1024⟩ : PmmSpan) ∈ m.spans := by
    rw [Except.ok.inj hspans]
    exact mem_cons_self
  exact ⟨_, hfirst, Nat.zero_le f, hf.2⟩

end Bongos.Mm
