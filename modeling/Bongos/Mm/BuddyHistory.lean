import Bongos.Run
import Bongos.Mm.Buddy

/-!
# Histories of the buddy core

The states that callers of `buddyFreeBlock` and `buddyAllocBlock` can bring one zone into. A caller
adds a block of `RESERVED` frames, as the decomposition loop of `pmmAddFreeRange` does, takes a
block out, or returns a block of frames it holds; `held` records the frames that are out. A caller
need not return the blocks it was given: any aligned block of held frames may come back.

In every such state the free blocks are canonical (`BuddyInv.canonical`), so the sets of free blocks
are a function of the set of free frames, and a history that ends with the same frames free ends
with the same blocks.
-/

namespace Bongos.Mm

open Set (mem_univ univ)

open DyadicBlocks (InBlock buddy inBlock_self)

/-- The array, the zone, and the frames that callers hold. -/
structure BuddyState where
  pages : PageArray
  zone : PmmZone
  held : Set ℕ

/-- The loop of `pmmAddFreeRange` that marks the frames of a block `TAIL` before the block is freed
for the first time. -/
def markTail (pages : PageArray) (pfn order : ℕ) : PageArray := fun f =>
  if InBlock f pfn order then { pages f with state := .tail } else pages f

/-- One call of a caller that only allocates and returns what it holds. -/
inductive BuddyCall : BuddyState → BuddyState → Prop
  | free {s : BuddyState} {pfn order : ℕ} (hk : order ≤ PMM_MAX_ORDER) (hal : 2^order ∣ pfn)
      (hheld : ∀ f, InBlock f pfn order → f ∈ s.held) :
      BuddyCall s ⟨(buddyFreeBlock s.pages s.zone pfn order).1,
        (buddyFreeBlock s.pages s.zone pfn order).2, s.held \ {f | InBlock f pfn order}⟩
  | alloc {s : BuddyState} {pfn order : ℕ} {pages : PageArray} {zone : PmmZone}
      (h : buddyAllocBlock s.pages s.zone order = some (pfn, pages, zone)) :
      BuddyCall s ⟨pages, zone, s.held ∪ {f | InBlock f pfn order}⟩
  | fail {s : BuddyState} {order : ℕ} (h : buddyAllocBlock s.pages s.zone order = none) :
      BuddyCall s s

/-- One step of a history: a call, or a block of `RESERVED` frames that enters the zone. -/
inductive BuddyStep : BuddyState → BuddyState → Prop
  | call {s s' : BuddyState} (h : BuddyCall s s') : BuddyStep s s'
  | add {s : BuddyState} {pfn order : ℕ} (hk : order ≤ PMM_MAX_ORDER) (hal : 2^order ∣ pfn)
      (hres : ∀ f, InBlock f pfn order → (s.pages f).state = .reserved) :
      BuddyStep s
        ⟨(buddyFreeBlock (markTail s.pages pfn order)
            { s.zone with managedPages := s.zone.managedPages + 2^order } pfn order).1,
          (buddyFreeBlock (markTail s.pages pfn order)
            { s.zone with managedPages := s.zone.managedPages + 2^order } pfn order).2, s.held⟩

/-- An empty zone over an array of `RESERVED` frames. -/
def BuddyState.init (name : String) (startPfn endPfn : ℕ) : BuddyState :=
  ⟨fun _ => {}, buddyZoneInit name startPfn endPfn, ∅⟩

/-- The states that some history reaches. -/
def BuddyReachable (s : BuddyState) : Prop :=
  ∃ name startPfn endPfn, Run BuddyStep (.init name startPfn endPfn) s

/-- The frames in the free blocks. -/
def BuddyState.freeFrames (s : BuddyState) : Set ℕ :=
  {f | ∃ k p, p ∈ s.zone.freeList k ∧ InBlock f p k}

/-- The invariant of histories. No frame is cached or allocated: these states belong to the callers
of the core. -/
structure BuddyInv (s : BuddyState) : Prop where
  tiling : PageTiling s.pages s.held
  lists : FreeLists univ s.pages s.zone
  freePages_eq : s.zone.freePages = s.zone.listedPages
  canonical : CanonicalFree univ s.pages
  state_cases : ∀ f, (s.pages f).state = .reserved ∨ (s.pages f).state = .tail ∨
    (s.pages f).state = .buddy

theorem chunkClosed_univ : ChunkClosed univ := fun _ _ => mem_univ _

variable {D H : Set ℕ} {pages pages' : PageArray} {s s' : BuddyState}

/-- The core's own writes leave a frame `RESERVED`, `TAIL` or `BUDDY`. -/
theorem BuddyOnly.state_cases (h : BuddyOnly D pages pages')
    {f : ℕ} (hf : (pages f).state = .reserved ∨ (pages f).state = .tail ∨
      (pages f).state = .buddy) :
    (pages' f).state = .reserved ∨ (pages' f).state = .tail ∨ (pages' f).state = .buddy := by
  rcases h f with e | ⟨-, -, s, k, hs, e⟩
  · rwa [e]
  · rw [e]; rcases hs with rfl | rfl <;> simp

/-- The core's own writes neither add frames to the zone nor remove any. -/
theorem BuddyOnly.reserved_iff (h : BuddyOnly D pages pages') (f : ℕ) :
    (pages' f).state = .reserved ↔ (pages f).state = .reserved := by
  rcases h f with e | ⟨-, hf, s, k, hs, e⟩
  · rw [e]
  · rw [e]; rcases hs with rfl | rfl <;> rcases hf with hf | hf <;> simp [hf]

/-- A step of the core on a state with the invariant. -/
theorem BuddyInv.of_coreStep {zone zone' : PmmZone}
    (hc : CanonicalFree univ pages) (hs : ∀ f, (pages f).state = .reserved ∨
      (pages f).state = .tail ∨ (pages f).state = .buddy)
    (h : CoreStep univ H pages zone pages' zone') : BuddyInv ⟨pages', zone', H⟩ :=
  ⟨h.tiling, h.lists, h.freePages_eq, h.canonical hc, fun f => h.only.state_cases (hs f)⟩

theorem BuddyInv.init (name : String) (startPfn endPfn : ℕ) :
    BuddyInv (.init name startPfn endPfn) where
  tiling := PageTiling.of_reserved fun _ => rfl
  lists := ⟨by simp [BuddyState.init, buddyZoneInit, FreeBlock],
    fun _ => List.nodup_nil, fun _ => rfl⟩
  freePages_eq := by simp [BuddyState.init, buddyZoneInit, PmmZone.listedPages]
  canonical := fun _ _ _ h => by simp [BuddyState.init, FreeBlock] at h
  state_cases := fun _ => Or.inl rfl

/-- A call keeps the invariant, and the set of frames that belong to the zone. -/
theorem BuddyInv.call (i : BuddyInv s) (h : BuddyCall s s') :
    BuddyInv s' ∧ ∀ f, (s'.pages f).state = .reserved ↔ (s.pages f).state = .reserved := by
  cases h with
  | free hk hal hheld =>
    obtain ⟨c, -⟩ := buddyFreeBlock_spec chunkClosed_univ i.tiling i.lists i.freePages_eq
      (mem_univ _) hk hal hheld
    exact ⟨.of_coreStep i.canonical i.state_cases c, c.only.reserved_iff⟩
  | alloc h =>
    obtain ⟨c, -⟩ := buddyAllocBlock_spec chunkClosed_univ i.tiling i.lists i.freePages_eq h
    exact ⟨.of_coreStep i.canonical i.state_cases c, c.only.reserved_iff⟩
  | fail _ => exact ⟨i, fun _ => Iff.rfl⟩

/-- Marking a block of `RESERVED` frames `TAIL` makes them held frames. -/
theorem markTail_tiling (t : PageTiling pages H) {pfn order : ℕ}
    (hres : ∀ f, InBlock f pfn order → (pages f).state = .reserved) :
    PageTiling (markTail pages pfn order) (H ∪ {f | InBlock f pfn order}) := by
  refine t.enter (fun f hf => ⟨hres f hf, ?_⟩) (fun f hf => if_neg hf)
  simp only [markTail, if_pos (show InBlock f pfn order from hf)]

/-- Marking a block of `RESERVED` frames `TAIL` changes no free block. -/
theorem freeBlock_markTail {pfn order : ℕ}
    (hres : ∀ f, InBlock f pfn order → (pages f).state = .reserved) {k p : ℕ} :
    FreeBlock D (markTail pages pfn order) k p ↔ FreeBlock D pages k p := by
  unfold FreeBlock markTail
  split_ifs with h
  · simp [hres p h]
  · rfl

/-- Every step of a history keeps the invariant. -/
theorem BuddyInv.step (i : BuddyInv s) (h : BuddyStep s s') : BuddyInv s' := by
  cases h with
  | call h => exact (i.call h).1
  | @add pfn order hk hal hres =>
    have hfb : FreeBlock univ (markTail s.pages pfn order) = FreeBlock univ s.pages := by
      funext k p; exact propext (freeBlock_markTail hres)
    have hl : FreeLists univ (markTail s.pages pfn order)
        { s.zone with managedPages := s.zone.managedPages + 2^order } :=
      ⟨by rw [hfb]; exact i.lists.mem_iff, i.lists.nodup, i.lists.freeBlocks_eq⟩
    obtain ⟨c, -⟩ := buddyFreeBlock_spec chunkClosed_univ (markTail_tiling i.tiling hres) hl
      i.freePages_eq (mem_univ pfn) hk hal (fun f => Or.inr)
    have hheld : (s.held ∪ {f | InBlock f pfn order}) \ {f | InBlock f pfn order} = s.held := by
      refine Set.union_sdiff_cancel_right fun f hf => ?_
      have htail : (s.pages f).state = .tail := i.tiling.hole_tail hf.1
      rw [hres f hf.2] at htail
      cases htail
    rw [hheld] at c
    refine .of_coreStep (by rw [CanonicalFree, hfb]; exact i.canonical) (fun f => ?_) c
    unfold markTail
    split_ifs
    · exact Or.inr (Or.inl rfl)
    · exact i.state_cases f

theorem BuddyReachable.inv (h : BuddyReachable s) : BuddyInv s := by
  obtain ⟨name, startPfn, endPfn, hrun⟩ := h
  exact hrun.invariant (BuddyInv.init _ _ _) BuddyInv.step

section

variable (i : BuddyInv s)

include i

/-- The free blocks of a state with the invariant are a family of disjoint blocks. -/
theorem BuddyInv.family : DyadicBlocks.Family PMM_MAX_ORDER (FreeBlock univ s.pages) where
  order_le := fun h => i.tiling.order_le h.head_eq
  aligned := fun h => i.tiling.aligned h.head_eq
  eq_of_mem := by
    intro j p k q f hp hq hf hf'
    have := i.tiling.head_eq hp.head_eq hq.head_eq hf hf'
    subst this
    exact ⟨hp.2.2.symm.trans hq.2.2, rfl⟩

/-- The frames that the free blocks cover. -/
theorem BuddyInv.cover_eq : DyadicBlocks.cover (FreeBlock univ s.pages) = s.freeFrames := by
  ext f
  constructor
  · rintro ⟨k, p, hp, hf⟩; exact ⟨k, p, i.lists.mem_iff.2 hp, hf⟩
  · rintro ⟨k, p, hp, hf⟩; exact ⟨k, p, i.lists.mem_iff.1 hp, hf⟩

/-- The free frames are the frames of the zone that nobody holds. -/
theorem BuddyInv.mem_freeFrames (f : ℕ) :
    f ∈ s.freeFrames ↔ (s.pages f).state ≠ .reserved ∧ f ∉ s.held := by
  constructor
  · rintro ⟨k, p, hp, hf⟩
    have hhead := (i.lists.mem_iff.1 hp).head_eq
    refine ⟨fun hres => ?_, i.tiling.not_mem_hole hhead hf⟩
    by_cases hfp : f = p
    · subst hfp
      have := (i.lists.mem_iff.1 hp).2.1
      rw [hres] at this
      cases this
    · have := (i.tiling.block_tail hhead hf hfp).1
      rw [IsTail, hres] at this
      cases this
  · rintro ⟨hres, hheld⟩
    rcases i.state_cases f with h | h | h
    · exact absurd h hres
    · obtain ⟨p, k, hp, hf⟩ := i.tiling.cover h hheld
      obtain ⟨hs, rfl⟩ := head_eq_some.1 hp
      have hb : (s.pages p).state = .buddy := by
        rcases i.state_cases p with h' | h' | h' <;> simp [h'] at hs ⊢
      exact ⟨_, p, i.lists.mem_iff.2 ⟨mem_univ p, hb, rfl⟩, hf⟩
    · exact ⟨_, f, i.lists.mem_iff.2 ⟨mem_univ f, h, rfl⟩, inBlock_self _ _⟩

/-- Two states with the same free frames have the same free blocks. -/
theorem BuddyInv.mem_freeList_iff (i' : BuddyInv s') (h : s.freeFrames = s'.freeFrames) (k p : ℕ) :
    p ∈ s.zone.freeList k ↔ p ∈ s'.zone.freeList k := by
  have hB := i.family.ext_of_cover i'.family i.canonical i'.canonical
    (by rw [i.cover_eq, i'.cover_eq, h])
  rw [i.lists.mem_iff, i'.lists.mem_iff, hB]

/-- Calls keep the frames of the zone. -/
theorem BuddyInv.reserved_iff_of_calls (h : Run BuddyCall s s') : BuddyInv s' ∧
      ∀ f, (s'.pages f).state = .reserved ↔ (s.pages f).state = .reserved :=
  h.invariant (P := fun s' => BuddyInv s' ∧
      ∀ f, (s'.pages f).state = .reserved ↔ (s.pages f).state = .reserved)
    ⟨i, fun _ => Iff.rfl⟩
    fun hP hab => ⟨(hP.1.call hab).1, fun f => ((hP.1.call hab).2 f).trans (hP.2 f)⟩

end

/-- **The free lists are canonical.** In every state that a history reaches, no block below the
largest order is free together with its buddy. Two such states with the same free frames have the
same free blocks of every order, whatever their histories. Calls that end with the frames held that
were held before them, every allocation returned, restore the free blocks. -/
theorem buddyLists_canonical :
    (∀ s, BuddyReachable s → ∀ k p, k < PMM_MAX_ORDER → p ∈ s.zone.freeList k →
        buddy p k ∉ s.zone.freeList k) ∧
      (∀ s s', BuddyReachable s → BuddyReachable s' → s.freeFrames = s'.freeFrames →
        ∀ k p, p ∈ s.zone.freeList k ↔ p ∈ s'.zone.freeList k) ∧
      (∀ s s', BuddyReachable s → Run BuddyCall s s' → s'.held = s.held →
        ∀ k p, p ∈ s.zone.freeList k ↔ p ∈ s'.zone.freeList k) := by
  refine ⟨fun s hs k p hk hp hb => ?_, fun s s' hs hs' h => hs.inv.mem_freeList_iff hs'.inv h,
    fun s s' hs hrun hheld => ?_⟩
  · exact hs.inv.canonical k p hk (hs.inv.lists.mem_iff.1 hp) (hs.inv.lists.mem_iff.1 hb)
  · obtain ⟨i', hres⟩ := hs.inv.reserved_iff_of_calls hrun
    refine hs.inv.mem_freeList_iff i' ?_
    ext f
    rw [hs.inv.mem_freeFrames, i'.mem_freeFrames, hheld, ne_eq, ne_eq, not_congr (hres f)]

/-- The array and the zone after a block of two frames has entered an empty zone. -/
def twoFrames : PageArray × PmmZone :=
  buddyFreeBlock (markTail (fun _ => {}) 0 1)
    { buddyZoneInit "DMA32" 0 1024 with managedPages := 2 } 0 1

/-- From a zone of two frames, one frame is allocated and returned: between the two calls frame 1 is
free without its buddy, and after them the free blocks are those of the start. -/
theorem buddyLists_canonical_twoFrames :
    ∃ s₁ s₂ : BuddyState, BuddyReachable ⟨twoFrames.1, twoFrames.2, ∅⟩ ∧
      BuddyCall ⟨twoFrames.1, twoFrames.2, ∅⟩ s₁ ∧ BuddyCall s₁ s₂ ∧
      s₁.zone.freeList 0 = [1] ∧ buddy 1 0 ∉ s₁.zone.freeList 0 ∧
      ∀ k p, p ∈ twoFrames.2.freeList k ↔ p ∈ s₂.zone.freeList k := by
  have hs : BuddyReachable ⟨twoFrames.1, twoFrames.2, ∅⟩ :=
    ⟨"DMA32", 0, 1024, .single (.add (by decide) (by decide)
      (fun _ _ => rfl))⟩
  obtain ⟨⟨pfn, pages, zone⟩, h⟩ := Option.isSome_iff_exists.1
    (by decide +kernel : (buddyAllocBlock twoFrames.1 twoFrames.2 0).isSome)
  have hpfn : (buddyAllocBlock twoFrames.1 twoFrames.2 0).map (·.1) = some 0 := by decide +kernel
  have hlist : (buddyAllocBlock twoFrames.1 twoFrames.2 0).map (·.2.2.freeList 0) = some [1] := by
    decide +kernel
  rw [h, Option.map_some, Option.some.injEq] at hpfn hlist
  subst hpfn
  have halloc : BuddyCall ⟨twoFrames.1, twoFrames.2, ∅⟩ _ := .alloc h
  have hfree := BuddyCall.free (s := ⟨pages, zone, ∅ ∪ {f | InBlock f 0 0}⟩) (Nat.zero_le _)
    (one_dvd 0) (fun f => Or.inr)
  have hs₁ : BuddyReachable ⟨pages, zone, ∅ ∪ {f | InBlock f 0 0}⟩ := by
    obtain ⟨name, a, b, hrun⟩ := hs
    exact ⟨name, a, b, hrun.tail (.call halloc)⟩
  refine ⟨_, _, hs, halloc, hfree, hlist, ?_, ?_⟩
  · exact buddyLists_canonical.1 _ hs₁ 0 1 (by decide)
      (by rw [hlist]; exact List.mem_singleton_self 1)
  · refine buddyLists_canonical.2.2 _ _ hs (.tail (.single halloc) hfree) ?_
    simp

end Bongos.Mm
