import Bongos.Mm.Pmm
import Mathlib.Data.Set.Card

/-!
# The frame-partition invariant

`PmmInv` holds between any two calls of the physical memory manager, and inside a call at every
point where at most one block is *in flight*: taken from one owner and not yet given to the next.
The owners are the free lists, the per-CPU caches, and the callers with their live blocks. Each call
is a sequence of seven moves between them, `enter`, `takeFree`, `putFree`, `takeCached`,
`putCached`, `takeLive`, and `putLive`, and each move keeps the invariant. The calls' own lemmas
only say which moves they make.
-/

namespace Bongos.Mm

open Function (update update_of_ne update_self)
open List

open DyadicBlocks (InBlock inBlock_self)

/-- The memory manager together with what its callers know: the live blocks, as pairs of first frame
and order, and the frames of the ranges that have been added. -/
structure PmmWorld where
  pmm : Pmm
  live : List (ℕ × ℕ)
  added : Set ℕ

/-- The frames of a zone. -/
def zoneFrames (z : PmmZoneId) : Set ℕ := {f | pmmZoneOfPfn f = z}

/-- The zones meet at a multiple of the largest block. -/
theorem chunkClosed_zoneFrames (z : PmmZoneId) : ChunkClosed (zoneFrames z) := by
  intro f g h hf
  have hiff : f < PMM_ZONE_DMA32_END_PFN ↔ g < PMM_ZONE_DMA32_END_PFN := by
    simp only [PMM_ZONE_DMA32_END_PFN, PMM_MAX_ORDER] at *
    omega
  simp only [zoneFrames, Set.mem_ofPred_eq, pmmZoneOfPfn, hiff] at *
  exact hf

variable {p k : ℕ}

/-- A block lies in the zone of its first frame. -/
theorem zone_of_inBlock {f : ℕ} (hk : k ≤ PMM_MAX_ORDER) (hp : 2^k ∣ p) (hf : InBlock f p k) :
    pmmZoneOfPfn f = pmmZoneOfPfn p :=
  ChunkClosed.mem_of_inBlock (chunkClosed_zoneFrames (pmmZoneOfPfn p)) hk hp
    (inBlock_self p k) hf rfl

theorem encard_inBlock : {f | InBlock f p k}.encard = (2^k : ℕ) := by
  have hset : {f | InBlock f p k} = ↑(Finset.Ico p (p + 2^k)) := by
    ext f
    simp [InBlock]
  rw [hset, Set.encard_coe_eq_coe_finsetCard, Nat.card_Ico, Nat.add_sub_cancel_left]

/-- The frames that a list of blocks has in one zone. -/
def blockPages (z : PmmZoneId) (blocks : List (ℕ × ℕ)) : ℕ :=
  (blocks.map fun b => if pmmZoneOfPfn b.1 = z then 2^b.2 else 0).sum

@[simp]
theorem blockPages_nil (z : PmmZoneId) : blockPages z [] = 0 := rfl

@[simp]
theorem blockPages_cons (z : PmmZoneId) (blocks : List (ℕ × ℕ)) : blockPages z ((p, k) :: blocks) =
      (if pmmZoneOfPfn p = z then 2^k else 0) + blockPages z blocks := by
  simp [blockPages]

variable {D : Set ℕ} {pages pages' : PageArray} {s : PageState} {zone : PmmZone}
  {cache : PmmPcpList} {z : PmmZoneId} {w : PmmWorld}

/-- A block that leaves a list takes its frames with it. -/
theorem blockPages_erase {blocks : List (ℕ × ℕ)} (h : (p, k) ∈ blocks) : blockPages z blocks =
      (if pmmZoneOfPfn p = z then 2^k else 0) + blockPages z (blocks.erase (p, k)) := by
  exact ((perm_cons_erase h).map _).sum_eq

/-- The frames of the block in flight, if there is one. -/
def flightFrames (flight : Option (ℕ × ℕ)) : Set ℕ := {f | ∃ b ∈ flight, InBlock f b.1 b.2}

@[simp]
theorem flightFrames_none : flightFrames none = ∅ := by
  ext f; simp [flightFrames]

@[simp]
theorem flightFrames_some : flightFrames (some (p, k)) = {f | InBlock f p k} := by
  ext f; simp [flightFrames]

/-- A per-CPU cache holds the cached frames of its zone, each once. -/
structure CacheOk (D : Set ℕ) (pages : PageArray) (cache : PmmPcpList) : Prop where
  mem_iff : ∀ {f}, f ∈ cache.pages ↔ f ∈ D ∧ Labelled pages .pcp 0 f
  nodup : cache.pages.Nodup
  count_eq : cache.count = cache.pages.length

/-- The invariant of the memory manager, with at most one block in flight. -/
structure PmmInv (w : PmmWorld) (flight : Option (ℕ × ℕ)) : Prop where
  /-- The labels of the array are disjoint aligned blocks; the frames in flight are in none. -/
  tiling : PageTiling w.pmm.pages (flightFrames flight)
  lists : ∀ z, FreeLists (zoneFrames z) w.pmm.pages (w.pmm.zones z)
  freePages_eq : ∀ z, (w.pmm.zones z).freePages = (w.pmm.zones z).listedPages
  cached : ∀ z, CacheOk (zoneFrames z) w.pmm.pages (w.pmm.cache z)
  /-- A cached block is one frame. -/
  cached_order : ∀ {k f}, Labelled w.pmm.pages .pcp k f → k = 0
  /-- The callers' blocks are the blocks that the array marks as allocated. -/
  live_iff : ∀ {p k}, (p, k) ∈ w.live ↔ Labelled w.pmm.pages .allocated k p
  live_nodup : w.live.Nodup
  added_iff : ∀ {f}, f ∈ w.added ↔ (w.pmm.pages f).state ≠ .reserved
  managed_eq : ∀ z, (w.pmm.zones z).managedPages =
    (w.pmm.zones z).freePages + (w.pmm.cache z).count + blockPages z w.live +
      blockPages z flight.toList
  /-- `managedPages` counts the frames that were added. -/
  counted : ∀ z, ((w.pmm.zones z).managedPages : ℕ∞) = (w.added ∩ zoneFrames z).encard
  flight_ok : ∀ {p k}, flight = some (p, k) → k ≤ PMM_MAX_ORDER ∧ 2^k ∣ p

/-! ## Labels that a write leaves alone -/

/-- The core's writes change no label besides `BUDDY` and `TAIL`. -/
theorem BuddyOnly.labelled_iff (h : BuddyOnly D pages pages') (hb : s ≠ .buddy) (ht : s ≠ .tail)
    (k f : ℕ) : Labelled pages' s k f ↔ Labelled pages s k f := by
  rcases h f with e | ⟨-, hf, s', k', hs', e⟩
  · simp only [Labelled, e]
  · have hold : (pages f).state ≠ s := by
      rintro rfl
      rcases hf with hf | hf
      · exact hb hf
      · exact ht hf
    have hnew : s' ≠ s := by
      rintro rfl
      rcases hs' with hs' | hs'
      · exact hb hs'
      · exact ht hs'
    simp [Labelled, e, hold, hnew]

/-- The core's writes to one zone leave the free lists of the others. -/
theorem FreeLists.of_only {E : Set ℕ}
    (l : FreeLists E pages zone) (h : BuddyOnly D pages pages') (hdisj : ∀ f ∈ D, f ∉ E) :
    FreeLists E pages' zone := by
  refine ⟨fun {k p} => ?_, l.nodup, l.freeBlocks_eq⟩
  rw [l.mem_iff]
  rcases h p with e | ⟨hD, -⟩
  · simp only [FreeBlock, e]
  · have hE : p ∉ E := hdisj p hD
    simp [FreeBlock, hE]

/-- A write that neither makes nor ends a free block leaves the free lists. -/
theorem FreeLists.relabel (l : FreeLists D pages zone) (hp : (pages p).state ≠ .buddy)
    (hs : s ≠ .buddy) : FreeLists D (relabel pages p s k) zone := by
  refine ⟨fun {j q} => ?_, l.nodup, l.freeBlocks_eq⟩
  rw [l.mem_iff]
  by_cases h : q = p
  · subst h; simp [FreeBlock, hp, hs]
  · simp [FreeBlock, h]

section

variable (c : CacheOk D pages cache)

include c

/-- A cache whose labels are unchanged. -/
theorem CacheOk.congr
    (h : ∀ f, Labelled pages' .pcp 0 f ↔ Labelled pages .pcp 0 f) : CacheOk D pages' cache :=
  ⟨fun {f} => by rw [c.mem_iff, h], c.nodup, c.count_eq⟩

/-- A frame leaves a cache. -/
theorem CacheOk.take {j : ℕ} {rest : List ℕ} (h : cache.pages.Perm (p :: rest)) :
    CacheOk D (Mm.relabel pages p .tail j) ⟨rest, cache.count - 1⟩ := by
  obtain ⟨hp, hnodup⟩ := nodup_cons.1 (h.nodup_iff.1 c.nodup)
  refine ⟨fun {f} => ?_, hnodup, ?_⟩
  · have hmem : f ∈ cache.pages ↔ f = p ∨ f ∈ rest := h.mem_iff.trans mem_cons
    rw [c.mem_iff] at hmem
    rw [labelled_relabel]
    by_cases hf : f = p
    · subst hf; simpa using hp
    · simp [hf] at hmem ⊢; exact hmem.symm
  · rw [c.count_eq, h.length_eq]; rfl

/-- A frame of the zone that is not cached joins its cache. -/
theorem CacheOk.put (hD : p ∈ D) (hp : (pages p).state ≠ .pcp) :
    CacheOk D (Mm.relabel pages p .pcp 0) ⟨p :: cache.pages, cache.count + 1⟩ := by
  have hnot : p ∉ cache.pages := fun h => hp (c.mem_iff.1 h).2.1
  refine ⟨fun {f} => ?_, nodup_cons.2 ⟨hnot, c.nodup⟩, ?_⟩
  · rw [labelled_relabel, mem_cons]
    by_cases hf : f = p
    · subst hf; simp [hD]
    · simp [hf, c.mem_iff]
  · rw [c.count_eq, length_cons]

/-- A write to a frame of another zone leaves a cache. -/
theorem CacheOk.relabel_outside (hp : p ∉ D) : CacheOk D (Mm.relabel pages p s k) cache := by
  refine ⟨fun {f} => ?_, c.nodup, c.count_eq⟩
  rw [c.mem_iff, labelled_relabel]
  by_cases hf : f = p
  · subst hf; simp [hp]
  · simp [hf]

end

/-- A write to a frame that has entered a zone. -/
theorem relabel_ne_reserved_iff {f : ℕ} (hp : (pages p).state ≠ .reserved) (hs : s ≠ .reserved) :
    (relabel pages p s k f).state ≠ .reserved ↔ (pages f).state ≠ .reserved := by
  by_cases hf : f = p
  · subst hf; simp [hp, hs]
  · simp [hf]

/-- The invariant reads the `state` and the `order` of a record only: the other fields belong to the
owner of the frame. -/
theorem PmmInv.congr_labels {flight : Option (ℕ × ℕ)} (i : PmmInv w flight)
    (pages : PageArray) (h : ∀ f, (pages f).state = (w.pmm.pages f).state ∧
      (pages f).order = (w.pmm.pages f).order) :
    PmmInv { w with pmm := { w.pmm with pages := pages } } flight := by
  have hl : ∀ s k f, Labelled pages s k f ↔ Labelled w.pmm.pages s k f := fun s k f => by
    simp only [Labelled, h f]
  have hhead : head pages = head w.pmm.pages := by
    funext f; simp only [head, h f]
  have htail : IsTail pages = IsTail w.pmm.pages := by
    funext f; simp only [IsTail, h f]
  refine ⟨by simpa only [PageTiling, hhead, htail] using i.tiling, fun z => ?_, i.freePages_eq,
    fun z => (i.cached z).congr fun f => hl _ _ f, fun hf => i.cached_order ((hl _ _ _).1 hf),
    i.live_iff.trans (hl _ _ _).symm, i.live_nodup, fun {f} => ?_, i.managed_eq, i.counted,
      i.flight_ok⟩
  · refine ⟨fun {k p} => ?_, (i.lists z).nodup, (i.lists z).freeBlocks_eq⟩
    rw [(i.lists z).mem_iff]
    simp only [FreeBlock, h p]
  · rw [i.added_iff, (h f).1]

/-! ## The moves -/

/-- A block of `RESERVED` frames enters its zone. -/
theorem PmmInv.enter (i : PmmInv w none) (hk : k ≤ PMM_MAX_ORDER)
    (hal : 2^k ∣ p) (hres : ∀ f, InBlock f p k → (w.pmm.pages f).state = .reserved) :
    PmmInv
      { w with
        pmm := { w.pmm with
          pages := markTail w.pmm.pages p k
          zones := update w.pmm.zones (pmmZoneOfPfn p)
            { w.pmm.zones (pmmZoneOfPfn p) with
              managedPages := (w.pmm.zones (pmmZoneOfPfn p)).managedPages + 2^k } }
        added := w.added ∪ {f | InBlock f p k} } (some (p, k)) := by
  have hlab : ∀ {s}, s ≠ .tail → s ≠ .reserved → ∀ j f,
      Labelled (markTail w.pmm.pages p k) s j f ↔ Labelled w.pmm.pages s j f := by
    intro s ht hr j f
    unfold Labelled markTail
    split_ifs with h
    · simp [hres f h, ht.symm, hr.symm]
    · rfl
  refine ⟨?_, fun z => ?_, fun z => ?_, fun z => (i.cached z).congr fun f => ?_, fun hf => ?_, ?_,
    i.live_nodup, fun {f} => ?_, fun z => ?_, fun z => ?_, ?_⟩
  · simpa using markTail_tiling i.tiling hres
  · have hl : FreeLists (zoneFrames z) (markTail w.pmm.pages p k) (w.pmm.zones z) :=
      ⟨(i.lists z).mem_iff.trans (freeBlock_markTail hres).symm, (i.lists z).nodup,
        (i.lists z).freeBlocks_eq⟩
    by_cases hz : z = pmmZoneOfPfn p
    · subst hz; simpa using ⟨hl.mem_iff, hl.nodup, hl.freeBlocks_eq⟩
    · simpa [hz] using hl
  · by_cases hz : z = pmmZoneOfPfn p
    · subst hz; simp only [update_self]; exact i.freePages_eq _
    · simpa [hz] using i.freePages_eq z
  · exact hlab (by decide) (by decide) 0 f
  · exact i.cached_order ((hlab (by decide) (by decide) _ _).1 hf)
  · exact i.live_iff.trans (hlab (by decide) (by decide) _ _).symm
  · simp only [Set.mem_union, Set.mem_ofPred_eq, i.added_iff, markTail]
    split_ifs with h <;> simp [h]
  · have hm := i.managed_eq z
    by_cases hz : z = pmmZoneOfPfn p
    · subst hz
      simp [hm]
    · simpa [hz, Ne.symm hz] using hm
  · dsimp only
    rw [Set.union_inter_distrib_right]
    by_cases hz : z = pmmZoneOfPfn p
    · subst hz
      have hin : {f | InBlock f p k} ⊆ zoneFrames (pmmZoneOfPfn p) :=
        fun f hf => zone_of_inBlock hk hal hf
      have hnew : Disjoint (w.added ∩ zoneFrames (pmmZoneOfPfn p)) {f | InBlock f p k} :=
        Set.disjoint_left.2 fun f hf hb => i.added_iff.1 hf.1 (hres f hb)
      rw [update_self, Set.inter_eq_left.2 hin, Set.encard_union_eq hnew, ← i.counted,
        encard_inBlock]
      exact Nat.cast_add _ _
    · have hout : {f | InBlock f p k} ∩ zoneFrames z = ∅ := by
        ext f
        refine iff_of_false (fun hf => hz ?_) (Set.notMem_empty f)
        exact hf.2.symm.trans (zone_of_inBlock hk hal hf.1)
      rw [update_of_ne hz, hout, Set.union_empty]
      exact i.counted z
  · rintro _ _ ⟨⟩; exact ⟨hk, hal⟩

/-- A call of the core on the zone `z` that leaves the block `flight'` in flight. -/
theorem PmmInv.of_coreStep {flight flight' : Option (ℕ × ℕ)} (i : PmmInv w flight)
    (c : CoreStep (zoneFrames z) (flightFrames flight') w.pmm.pages (w.pmm.zones z) pages zone)
    (hfree : zone.freePages + blockPages z flight'.toList =
      (w.pmm.zones z).freePages + blockPages z flight.toList)
    (hother : ∀ z', z' ≠ z → blockPages z' flight'.toList = blockPages z' flight.toList)
    (hok : ∀ {p k}, flight' = some (p, k) → k ≤ PMM_MAX_ORDER ∧ 2^k ∣ p) :
    PmmInv
      { w with
        pmm := { w.pmm with pages := pages, zones := update w.pmm.zones z zone } }
      flight' := by
  have hlab : ∀ {s}, s ≠ .buddy → s ≠ .tail → ∀ j f,
      Labelled pages s j f ↔ Labelled w.pmm.pages s j f := fun hb ht => c.only.labelled_iff hb ht
  refine ⟨c.tiling, fun z' => ?_, fun z' => ?_, fun z' => (i.cached z').congr fun f => ?_,
    fun hf => ?_, ?_, i.live_nodup, fun {f} => ?_, fun z' => ?_, fun z' => ?_, hok⟩
  · by_cases hz : z' = z
    · subst hz; simpa using c.lists
    · simpa [hz] using (i.lists z').of_only c.only fun f h h' => hz (h'.symm.trans h)
  · by_cases hz : z' = z
    · subst hz; simpa using c.freePages_eq
    · simpa [hz] using i.freePages_eq z'
  · exact hlab (by decide) (by decide) 0 f
  · exact i.cached_order ((hlab (by decide) (by decide) _ _).1 hf)
  · exact i.live_iff.trans (hlab (by decide) (by decide) _ _).symm
  · rw [i.added_iff, ne_eq, ne_eq, not_congr (c.only.reserved_iff _)]
  · have hm := i.managed_eq z'
    by_cases hz : z' = z
    · subst hz
      have := c.managed_eq
      simp only [update_self]
      omega
    · simp only [update_of_ne hz, hother z' hz]
      exact hm
  · by_cases hz : z' = z
    · subst hz
      simpa [c.managed_eq] using i.counted z'
    · simpa [hz] using i.counted z'

/-- A block comes off the free lists. -/
theorem PmmInv.takeFree (i : PmmInv w none) {order pfn : ℕ}
    (h : buddyAllocBlock w.pmm.pages (w.pmm.zones z) order = some (pfn, pages, zone)) :
    pmmZoneOfPfn pfn = z ∧ PmmInv
      { w with
        pmm := { w.pmm with pages := pages, zones := update w.pmm.zones z zone } }
      (some (pfn, order)) := by
  obtain ⟨c, hfree, hz, hk, hal, -⟩ := buddyAllocBlock_spec (chunkClosed_zoneFrames z) i.tiling
    (i.lists z) (i.freePages_eq z) h
  have hz : pmmZoneOfPfn pfn = z := hz
  refine ⟨hz, i.of_coreStep ?_ ?_ (fun z' hz' => ?_) ?_⟩
  · simpa using c
  · simp [hz, hfree]
  · simp [hz, hz'.symm]
  · rintro _ _ ⟨⟩; exact ⟨hk, hal⟩

/-- The block in flight goes to the free lists. -/
theorem PmmInv.putFree (i : PmmInv w (some (p, k))) (hz : pmmZoneOfPfn p = z) : PmmInv { w with
        pmm := { w.pmm with
          pages := (buddyFreeBlock w.pmm.pages (w.pmm.zones z) p k).1
          zones := update w.pmm.zones z
            (buddyFreeBlock w.pmm.pages (w.pmm.zones z) p k).2 } } none := by
  obtain ⟨hk, hal⟩ := i.flight_ok rfl
  obtain ⟨c, hfree⟩ := buddyFreeBlock_spec (chunkClosed_zoneFrames z) i.tiling (i.lists z)
    (i.freePages_eq z) hz hk hal (fun f hf => by simpa using hf)
  refine i.of_coreStep ?_ ?_ (fun z' hz' => ?_) (fun h => nomatch h)
  · simpa using c
  · simp [hz, hfree]
  · simp [hz, hz'.symm]

/-- A frame comes out of the cache of its zone. -/
theorem PmmInv.takeCached (i : PmmInv w none)
    {rest : List ℕ} (h : (w.pmm.cache z).pages.Perm (p :: rest)) (j : ℕ) :
    pmmZoneOfPfn p = z ∧ PmmInv
      { w with
        pmm := { w.pmm with
          pages := relabel w.pmm.pages p .tail j
          cache := update w.pmm.cache z ⟨rest, (w.pmm.cache z).count - 1⟩ } }
      (some (p, 0)) := by
  obtain ⟨hz, hp⟩ := (i.cached z).mem_iff.1 (h.mem_iff.2 mem_cons_self)
  have hz : pmmZoneOfPfn p = z := hz
  refine ⟨hz, ?_, fun z' => (i.lists z').relabel (by rw [hp.1]; decide) (by decide),
    i.freePages_eq, fun z' => ?_, fun {k f} hf => ?_, ?_, i.live_nodup, fun {f} => ?_,
    fun z' => ?_, i.counted, ?_⟩
  · have hhead : head w.pmm.pages p = some 0 := head_eq_some.2 ⟨Or.inr (Or.inl hp.1), hp.2⟩
    simpa using i.tiling.dissolve hhead
  · by_cases hz' : z' = z
    · subst hz'; simpa using (i.cached z').take h
    · simpa [hz'] using (i.cached z').relabel_outside fun hf => hz' (hf.symm.trans hz)
  · rcases labelled_relabel.1 hf with ⟨-, h, -⟩ | ⟨-, h⟩
    · exact nomatch h
    · exact i.cached_order h
  · exact i.live_iff.trans (labelled_relabel_other (by rw [hp.1]; decide) (by decide)).symm
  · exact i.added_iff.trans (relabel_ne_reserved_iff (by rw [hp.1]; decide) (by decide)).symm
  · have hm := i.managed_eq z'
    by_cases hz' : z' = z
    · subst hz'
      have hpos : 0 < (w.pmm.cache z').count := by
        rw [(i.cached z').count_eq, h.length_eq]; exact Nat.succ_pos _
      simp only [Option.toList_none, blockPages_nil] at hm
      simp [hz]
      omega
    · simpa [hz', hz, Ne.symm hz'] using hm
  · rintro _ _ ⟨⟩; exact ⟨Nat.zero_le _, one_dvd _⟩

/-- The frame in flight goes to the cache of its zone. -/
theorem PmmInv.putCached (i : PmmInv w (some (p, 0))) (hz : pmmZoneOfPfn p = z) : PmmInv { w with
        pmm := { w.pmm with
          pages := relabel w.pmm.pages p .pcp 0
          cache := update w.pmm.cache z
            ⟨p :: (w.pmm.cache z).pages, (w.pmm.cache z).count + 1⟩ } } none := by
  have hp : (w.pmm.pages p).state = .tail := i.tiling.hole_tail (by simp)
  refine ⟨?_, fun z' => (i.lists z').relabel (by rw [hp]; decide) (by decide),
    i.freePages_eq, fun z' => ?_, fun {k f} hf => ?_, ?_, i.live_nodup, fun {f} => ?_,
    fun z' => ?_, i.counted, fun h => nomatch h⟩
  · simpa using i.tiling.form (Or.inr (Or.inl rfl)) (Nat.zero_le _) (one_dvd p)
  · by_cases hz' : z' = z
    · subst hz'; simpa using (i.cached z').put hz (by rw [hp]; decide)
    · simpa [hz'] using (i.cached z').relabel_outside fun hf => hz' (hf.symm.trans hz)
  · rcases labelled_relabel.1 hf with ⟨-, -, h⟩ | ⟨-, h⟩
    · exact h.symm
    · exact i.cached_order h
  · exact i.live_iff.trans (labelled_relabel_other (by rw [hp]; decide) (by decide)).symm
  · exact i.added_iff.trans (relabel_ne_reserved_iff (by rw [hp]; decide) (by decide)).symm
  · have hm := i.managed_eq z'
    by_cases hz' : z' = z
    · subst hz'
      simp [hz] at hm ⊢
      omega
    · simpa [hz', hz, Ne.symm hz'] using hm

/-- A caller gives up one of its blocks. -/
theorem PmmInv.takeLive (i : PmmInv w none) (h : (p, k) ∈ w.live) (j : ℕ) : PmmInv { w with
        pmm := { w.pmm with pages := relabel w.pmm.pages p .tail j }
        live := w.live.erase (p, k) } (some (p, k)) := by
  have hp := i.live_iff.1 h
  have hhead : head w.pmm.pages p = some k := head_eq_some.2 ⟨Or.inr (Or.inr hp.1), hp.2⟩
  refine ⟨?_, fun z => (i.lists z).relabel (by rw [hp.1]; decide) (by decide), i.freePages_eq,
    fun z => (i.cached z).congr fun f => ?_, fun {k f} hf => ?_, fun {q j'} => ?_,
    i.live_nodup.erase _, fun {f} => ?_, fun z => ?_, i.counted, ?_⟩
  · simpa using i.tiling.dissolve hhead
  · exact labelled_relabel_other (by rw [hp.1]; decide) (by decide)
  · exact i.cached_order ((labelled_relabel_other (by rw [hp.1]; decide) (by decide)).1 hf)
  · rw [i.live_nodup.mem_erase_iff, i.live_iff, labelled_relabel]
    by_cases hq : q = p
    · subst hq
      have : Labelled w.pmm.pages .allocated j' q → j' = k := fun h' => h'.2.symm.trans hp.2
      simp; tauto
    · simp [hq]
  · exact i.added_iff.trans (relabel_ne_reserved_iff (by rw [hp.1]; decide) (by decide)).symm
  · have hm := i.managed_eq z
    rw [blockPages_erase h] at hm
    simp at hm ⊢
    omega
  · rintro _ _ ⟨⟩; exact ⟨i.tiling.order_le hhead, i.tiling.aligned hhead⟩

/-- The block in flight goes to a caller. -/
theorem PmmInv.putLive (i : PmmInv w (some (p, k))) : PmmInv { w with
        pmm := { w.pmm with pages := relabel w.pmm.pages p .allocated k }
        live := (p, k) :: w.live } none := by
  obtain ⟨hk, hal⟩ := i.flight_ok rfl
  have hp : (w.pmm.pages p).state = .tail := i.tiling.hole_tail (by simpa using inBlock_self p k)
  refine ⟨?_, fun z => (i.lists z).relabel (by rw [hp]; decide) (by decide), i.freePages_eq,
    fun z => (i.cached z).congr fun f => ?_, fun {k f} hf => ?_, fun {q j'} => ?_, ?_,
    fun {f} => ?_, fun z => ?_, i.counted, fun h => nomatch h⟩
  · simpa using i.tiling.form (Or.inr (Or.inr rfl)) hk hal
  · exact labelled_relabel_other (by rw [hp]; decide) (by decide)
  · exact i.cached_order ((labelled_relabel_other (by rw [hp]; decide) (by decide)).1 hf)
  · rw [mem_cons, i.live_iff, labelled_relabel]
    by_cases hq : q = p
    · subst hq
      have : ¬ Labelled w.pmm.pages .allocated j' q := fun h' => by
        rw [Labelled, hp] at h'; cases h'.1
      simp [this, eq_comm]
    · simp [hq]
  · refine nodup_cons.2 ⟨fun h => ?_, i.live_nodup⟩
    have := (i.live_iff.1 h).1
    rw [hp] at this
    cases this
  · exact i.added_iff.trans (relabel_ne_reserved_iff (by rw [hp]; decide) (by decide)).symm
  · have hm := i.managed_eq z
    simp at hm ⊢
    omega

end Bongos.Mm
