import Bongos.Mm.Page

/-!
# The buddy core

`buddyFreeBlock` and `buddyAllocBlock` of `buddy.c`, on a `Page` array and one zone. The free lists
hold the frame numbers of the heads, in list order. Blocks that a caller holds are `TAIL` throughout
while these functions run, so in the tiling of the array they are the frames of `H`.

`FreeLists` is the part of the invariant that ties a zone's lists and counters to the array, over
the frames `D` of the zone. `buddyFreeBlock_spec` and `buddyAllocBlock_spec` say what one call does
to the tiling, to the lists, and to the frames it does not own. Each is assembled from the same
three steps on the array and the same two on the lists, `unlink` and `pushFree`.
-/

namespace Bongos.Mm

open List

open Function (update update_of_ne update_self)

open DyadicBlocks

/-- `PmmZone`: the free lists of one zone, by order, and its counters. -/
structure PmmZone where
  freeList : ℕ → List ℕ
  freeBlocks : ℕ → ℕ
  freePages : ℕ
  managedPages : ℕ
  startPfn : ℕ
  endPfn : ℕ
  name : String

/-- `buddyZoneInit`: an empty zone. -/
def buddyZoneInit (name : String) (startPfn endPfn : ℕ) : PmmZone where
  freeList := fun _ => []
  freeBlocks := fun _ => 0
  freePages := 0
  managedPages := 0
  startPfn := startPfn
  endPfn := endPfn
  name := name

/-- `listRemove` of the head `pfn` from `freeList[k]`, with the decrement of `freeBlocks[k]` that
goes with it. -/
def unlink (zone : PmmZone) (k pfn : ℕ) : PmmZone :=
  { zone with
    freeList := update zone.freeList k ((zone.freeList k).erase pfn)
    freeBlocks := update zone.freeBlocks k (zone.freeBlocks k - 1) }

/-- `listPushHead` of the head `pfn` on `freeList[k]`, with the increment of `freeBlocks[k]` that
goes with it. -/
def pushFree (zone : PmmZone) (k pfn : ℕ) : PmmZone :=
  { zone with
    freeList := update zone.freeList k (pfn :: zone.freeList k)
    freeBlocks := update zone.freeBlocks k (zone.freeBlocks k + 1) }

/-- The merge loop of `buddyFreeBlock`: while the buddy is the head of a free block of the same
order, it is unlinked and the two become one block. -/
def buddyMerge (pages : PageArray) (zone : PmmZone) (pfn order : ℕ) :
    PageArray × PmmZone × ℕ × ℕ :=
  if order < PMM_MAX_ORDER then
    if (pages (buddy pfn order)).state ≠ .buddy ∨ (pages (buddy pfn order)).order ≠ order then
      (pages, zone, pfn, order)
    else
      buddyMerge (relabel pages (buddy pfn order) .tail 0) (unlink zone order (buddy pfn order))
        (parent pfn order) (order + 1)
  else
    (pages, zone, pfn, order)
termination_by PMM_MAX_ORDER - order

/-- `buddyFreeBlock`: returns the block of order `order` at `pfn` to the zone. -/
def buddyFreeBlock (pages : PageArray) (zone : PmmZone) (pfn order : ℕ) : PageArray × PmmZone :=
  let zone := { zone with freePages := zone.freePages + 2^order }
  let (pages, zone, pfn, order) := buddyMerge pages zone pfn order
  (relabel pages pfn .buddy order, pushFree zone order pfn)

/-- The split loop of `buddyAllocBlock`, from order `k` down to `order`: the upper half of the block
at `pfn` becomes a free block of its own. -/
def buddySplit (pages : PageArray) (zone : PmmZone) (pfn order : ℕ) : ℕ → PageArray × PmmZone
  | 0 => (pages, zone)
  | k + 1 =>
    if order < k + 1 then
      buddySplit (relabel pages (pfn + 2^k) .buddy k) (pushFree zone k (pfn + 2^k)) pfn order k
    else
      (pages, zone)

/-- The smallest order from `order` up with a free block. -/
def firstFreeOrder (zone : PmmZone) (order : ℕ) : Option ℕ :=
  (List.range' order (PMM_ORDER_COUNT - order)).find? fun k => !(zone.freeList k).isEmpty

/-- `buddyAllocBlock`: takes the first block of the smallest sufficient order off the zone, splits
it down to `order`, and returns its base. -/
def buddyAllocBlock (pages : PageArray) (zone : PmmZone) (order : ℕ) :
    Option (ℕ × PageArray × PmmZone) := do
  let k ← firstFreeOrder zone order
  let pfn ← (zone.freeList k).head?
  let (pages, zone) := buddySplit (relabel pages pfn .tail 0) (unlink zone k pfn) pfn order k
  return (pfn, pages, { zone with freePages := zone.freePages - 2^order })

/-! ## The lists and counters of a zone -/

/-- The pages on the free lists, by the block counts. -/
def PmmZone.listedPages (zone : PmmZone) : ℕ :=
  ∑ k ∈ Finset.range PMM_ORDER_COUNT, zone.freeBlocks k * 2^k

/-- `p` heads a free block of order `k`, of a zone with the frames `D`. -/
def FreeBlock (D : Set ℕ) (pages : PageArray) (k p : ℕ) : Prop :=
  p ∈ D ∧ (pages p).state = .buddy ∧ (pages p).order = k

/-- The lists of a zone with the frames `D` are the free blocks of the array, each once, and the
block counts are their lengths. -/
structure FreeLists (D : Set ℕ) (pages : PageArray) (zone : PmmZone) : Prop where
  /-- `freeList[k]` holds the heads of the free blocks of order `k`. -/
  mem_iff : ∀ {k p}, p ∈ zone.freeList k ↔ FreeBlock D pages k p
  /-- No head is on a list twice. -/
  nodup : ∀ k, (zone.freeList k).Nodup
  /-- `freeBlocks[k]` is the length of `freeList[k]`. -/
  freeBlocks_eq : ∀ k, zone.freeBlocks k = (zone.freeList k).length

/-- A set of frames that holds or omits each aligned run of `2^PMM_MAX_ORDER` frames as a whole, as
a zone and a span do. -/
def ChunkClosed (D : Set ℕ) : Prop :=
  ∀ {f g}, f / 2^PMM_MAX_ORDER = g / 2^PMM_MAX_ORDER → f ∈ D → g ∈ D

variable {D H : Set ℕ} {p k j q pfn order : ℕ} {pages pages' : PageArray} {zone zone' : PmmZone}

/-- The frames of one block lie on the same side of a chunk-closed set. -/
theorem ChunkClosed.mem_of_inBlock (hD : ChunkClosed D) {f g : ℕ}
    (hk : k ≤ PMM_MAX_ORDER) (hp : 2^k ∣ p) (hf : InBlock f p k) (hg : InBlock g p k)
    (h : f ∈ D) : g ∈ D := by
  refine hD ?_ h
  have hchunk : 2^PMM_MAX_ORDER ∣ p / 2^PMM_MAX_ORDER * 2^PMM_MAX_ORDER := Dvd.intro_left _ rfl
  have hpc : InBlock p (p / 2^PMM_MAX_ORDER * 2^PMM_MAX_ORDER) PMM_MAX_ORDER := by
    rw [inBlock_iff_div hchunk, Nat.mul_div_cancel _ (Nat.two_pow_pos _)]
  have hf' := InBlock.nested hp hchunk hk (inBlock_self p k) hpc hf
  have hg' := InBlock.nested hp hchunk hk (inBlock_self p k) hpc hg
  rw [inBlock_iff_div hchunk] at hf' hg'
  rw [hf', hg']

/-- A buddy lies in the zone of its block. -/
theorem ChunkClosed.buddy_mem (hD : ChunkClosed D) (hk : k < PMM_MAX_ORDER)
    (hp : 2^k ∣ p) (h : p ∈ D) : buddy p k ∈ D :=
  hD.mem_of_inBlock hk (parent_aligned hp)
    ((inBlock_parent hp).2 (.inl (inBlock_self p k)))
    ((inBlock_parent hp).2 (.inr (inBlock_self _ k))) h

/-- A write of `TAIL` to one frame leaves the other free blocks. -/
theorem freeBlock_relabel_tail :
    FreeBlock D (relabel pages p .tail j) k q ↔ q ≠ p ∧ FreeBlock D pages k q := by
  by_cases h : q = p
  · subst h; simp [FreeBlock]
  · simp [FreeBlock, h]

/-- A write of `BUDDY` with order `k` to one frame of the zone makes it a free block. -/
theorem freeBlock_relabel_buddy (hp : p ∈ D) : FreeBlock D (relabel pages p .buddy k) j q ↔
      (q = p ∧ j = k) ∨ (q ≠ p ∧ FreeBlock D pages j q) := by
  by_cases h : q = p
  · subst h; simp [FreeBlock, hp, eq_comm]
  · simp [FreeBlock, h]

/-- A free block taken off its list and out of the array. -/
theorem FreeLists.unlink (l : FreeLists D pages zone) (hp : FreeBlock D pages k p) :
    FreeLists D (relabel pages p .tail j) (unlink zone k p) := by
  have hmem : p ∈ zone.freeList k := l.mem_iff.2 hp
  refine ⟨?_, ?_, ?_⟩
  · intro i q
    rw [freeBlock_relabel_tail]
    by_cases hi : i = k
    · subst hi
      simp only [Mm.unlink, update_self]
      rw [(l.nodup i).mem_erase_iff, l.mem_iff]
    · simp only [Mm.unlink, update_of_ne hi]
      rw [l.mem_iff]
      refine ⟨fun h => ⟨?_, h⟩, fun h => h.2⟩
      rintro rfl
      exact hi (h.2.2.symm.trans hp.2.2)
  · intro i
    by_cases hi : i = k
    · subst hi; simpa [Mm.unlink] using (l.nodup i).erase p
    · simpa [Mm.unlink, hi] using l.nodup i
  · intro i
    by_cases hi : i = k
    · subst hi; simp [Mm.unlink, length_erase_of_mem hmem, l.freeBlocks_eq]
    · simpa [Mm.unlink, hi] using l.freeBlocks_eq i

/-- A frame that heads no free block, put on a list and into the array as one. -/
theorem FreeLists.push (l : FreeLists D pages zone) (hD : p ∈ D) (hp : (pages p).state ≠ .buddy) :
    FreeLists D (relabel pages p .buddy k) (pushFree zone k p) := by
  have hnot : ∀ i, p ∉ zone.freeList i := fun i h => hp (l.mem_iff.1 h).2.1
  refine ⟨?_, ?_, ?_⟩
  · intro i q
    rw [freeBlock_relabel_buddy hD]
    by_cases hi : i = k
    · subst hi
      simp only [pushFree, update_self, mem_cons, l.mem_iff]
      tauto
    · simp only [pushFree, update_of_ne hi, l.mem_iff]
      have : FreeBlock D pages i q → q ≠ p := by
        rintro h rfl
        exact hp h.2.1
      tauto
  · intro i
    by_cases hi : i = k
    · subst hi; simpa [pushFree] using ⟨hnot i, l.nodup i⟩
    · simpa [pushFree, hi] using l.nodup i
  · intro i
    by_cases hi : i = k
    · subst hi; simp [pushFree, l.freeBlocks_eq]
    · simpa [pushFree, hi] using l.freeBlocks_eq i

/-- A change of one block count changes the listed pages by that order's share. -/
theorem listedPages_update {n : ℕ} (hk : k ≤ PMM_MAX_ORDER)
    (h : zone'.freeBlocks = update zone.freeBlocks k n) :
    zone'.listedPages + zone.freeBlocks k * 2^k = zone.listedPages + n * 2^k := by
  have hmem : k ∈ Finset.range PMM_ORDER_COUNT := Finset.mem_range.2 (Nat.lt_succ_of_le hk)
  have hrest : ∀ i ∈ (Finset.range PMM_ORDER_COUNT).erase k,
      update zone.freeBlocks k n i * 2^i = zone.freeBlocks i * 2^i := by
    intro i hi
    rw [update_of_ne (Finset.ne_of_mem_erase hi)]
  unfold PmmZone.listedPages
  rw [h, ← Finset.add_sum_erase _ _ hmem, ← Finset.add_sum_erase _ _ hmem,
    Finset.sum_congr rfl hrest, update_self]
  omega

/-- Pushing a block of order `k` adds `2^k` listed pages. -/
theorem listedPages_pushFree (zone : PmmZone) (p : ℕ) (hk : k ≤ PMM_MAX_ORDER) :
    (pushFree zone k p).listedPages = zone.listedPages + 2^k := by
  have h : (pushFree zone k p).listedPages + zone.freeBlocks k * 2^k =
      zone.listedPages + (zone.freeBlocks k + 1) * 2^k := listedPages_update hk rfl
  rw [Nat.add_mul, Nat.one_mul] at h
  omega

/-- Unlinking a block of order `k` removes `2^k` listed pages. -/
theorem listedPages_unlink (p : ℕ) (hk : k ≤ PMM_MAX_ORDER)
    (hpos : 0 < zone.freeBlocks k) : (unlink zone k p).listedPages + 2^k = zone.listedPages := by
  have h : (unlink zone k p).listedPages + zone.freeBlocks k * 2^k =
      zone.listedPages + (zone.freeBlocks k - 1) * 2^k := listedPages_update hk rfl
  obtain ⟨n, hn⟩ := Nat.exists_eq_succ_of_ne_zero hpos.ne'
  rw [hn, Nat.succ_sub_one, Nat.succ_mul] at h
  omega

/-- A free block has a positive block count. -/
theorem FreeLists.freeBlocks_pos (l : FreeLists D pages zone) (hp : FreeBlock D pages k p) :
    0 < zone.freeBlocks k := by
  rw [l.freeBlocks_eq]
  exact length_pos_of_mem (l.mem_iff.2 hp)

/-- A free block is the head of a block of the tiling. -/
theorem FreeBlock.head_eq (h : FreeBlock D pages k p) : head pages p = some k :=
  head_eq_some.2 ⟨.inl h.2.1, h.2.2⟩

/-! ## What the core leaves alone -/

/-- The core's writes from one array to another: only frames of `D` that are `BUDDY` or `TAIL`
change, only in their `state` and `order`, and they stay `BUDDY` or `TAIL`. -/
def BuddyOnly (D : Set ℕ) (pages pages' : PageArray) : Prop :=
  ∀ f, pages' f = pages f ∨ f ∈ D ∧ ((pages f).state = .buddy ∨ (pages f).state = .tail) ∧
    ∃ s k, (s = .buddy ∨ s = .tail) ∧ pages' f = { pages f with state := s, order := k }

theorem BuddyOnly.refl (D : Set ℕ) (pages : PageArray) : BuddyOnly D pages pages :=
  fun _ => .inl rfl

theorem BuddyOnly.trans {a b c : PageArray} (h : BuddyOnly D a b)
    (h' : BuddyOnly D b c) : BuddyOnly D a c := by
  intro f
  rcases h f with e | ⟨hD, hs, s, k, hsk, e⟩
  · rcases h' f with e' | ⟨hD', hs', s', k', hsk', e'⟩
    · exact .inl (e'.trans e)
    · exact .inr ⟨hD', e ▸ hs', s', k', hsk', by rw [e', e]⟩
  · rcases h' f with e' | ⟨-, -, s', k', hsk', e'⟩
    · exact .inr ⟨hD, hs, s, k, hsk, e'.trans e⟩
    · exact .inr ⟨hD, hs, s', k', hsk', by rw [e', e]⟩

/-- One write of the core. -/
theorem BuddyOnly.relabel {s : PageState} (k : ℕ)
    (hD : p ∈ D) (hp : (pages p).state = .buddy ∨ (pages p).state = .tail)
    (hs : s = .buddy ∨ s = .tail) : BuddyOnly D pages (relabel pages p s k) := by
  intro f
  by_cases h : f = p
  · subst h; exact .inr ⟨hD, hp, s, k, hs, relabel_self _ _ _ _⟩
  · exact .inl (relabel_of_ne _ h)

/-! ## Freeing a block -/

/-- What the merge loop leaves: a block `(p, k)` around the block it was given, made of that block
and of free blocks that are now unlinked. -/
structure Merged (D H : Set ℕ) (pages : PageArray) (zone : PmmZone) (pfn order : ℕ)
    (pages' : PageArray) (zone' : PmmZone) (p k : ℕ) : Prop where
  tiling : PageTiling pages' (H ∪ {f | InBlock f p k})
  lists : FreeLists D pages' zone'
  base_mem : p ∈ D
  order_le : k ≤ PMM_MAX_ORDER
  aligned : 2^k ∣ p
  /-- The frames of the block that were held are those of the block given. -/
  hole_iff : ∀ f ∈ H, InBlock f p k ↔ InBlock f pfn order
  freePages_eq : zone'.freePages = zone'.listedPages + 2^k
  freePages_same : zone'.freePages = zone.freePages
  managed_eq : zone'.managedPages = zone.managedPages
  only : BuddyOnly D pages pages'
  /-- The merging stopped because there was nothing left to merge with. -/
  stopped : k < PMM_MAX_ORDER → ¬ FreeBlock D pages' k (buddy p k)
  /-- No free block is new. -/
  free_old : ∀ {j q}, FreeBlock D pages' j q → FreeBlock D pages j q

/-- The merge loop, on a block of held frames. -/
theorem buddyMerge_spec (hD : ChunkClosed D) (pages : PageArray) (zone : PmmZone)
    (pfn order : ℕ) (t : PageTiling pages H) (l : FreeLists D pages zone) (hp : pfn ∈ D)
    (hk : order ≤ PMM_MAX_ORDER) (hal : 2^order ∣ pfn) (hH : ∀ f, InBlock f pfn order → f ∈ H)
    (hfree : zone.freePages = zone.listedPages + 2^order) :
    Merged D H pages zone pfn order (buddyMerge pages zone pfn order).1
      (buddyMerge pages zone pfn order).2.1 (buddyMerge pages zone pfn order).2.2.1
      (buddyMerge pages zone pfn order).2.2.2 := by
  have hself : H ∪ {f | InBlock f pfn order} = H := Set.union_eq_left.2 hH
  fun_induction buddyMerge pages zone pfn order generalizing H with
  | case1 pages zone pfn order hlt hstop =>
    refine ⟨by rwa [hself], l, hp, hk, hal, fun f _ => Iff.rfl, hfree, rfl, rfl, BuddyOnly.refl _ _,
      fun _ hb => ?_, id⟩
    exact hstop.elim (fun h => h hb.2.1) (fun h => h hb.2.2)
  | case2 pages zone pfn order hlt hgo ih =>
    rw [not_or, not_not, not_not] at hgo
    have hb : FreeBlock D pages order (buddy pfn order) := ⟨hD.buddy_mem hlt hal hp, hgo⟩
    -- The buddy joins the held frames, and the two halves make up the parent.
    have t' := t.dissolve (j := 0) hb.head_eq
    have l' := l.unlink (j := 0) hb
    have hin : ∀ f, InBlock f (parent pfn order) (order + 1) →
        f ∈ H ∪ {f | InBlock f (buddy pfn order) order} := by
      intro f hf
      rcases (inBlock_parent hal).1 hf with h | h
      · exact .inl (hH f h)
      · exact .inr h
    have hfree' : (unlink zone order (buddy pfn order)).freePages =
        (unlink zone order (buddy pfn order)).listedPages + 2^(order + 1) := by
      have := listedPages_unlink (buddy pfn order) hk (l.freeBlocks_pos hb)
      simp only [unlink] at this ⊢
      omega
    have hpar : parent pfn order ∈ D :=
      hD.mem_of_inBlock hlt (parent_aligned hal)
        ((inBlock_parent hal).2 (.inl (inBlock_self pfn order))) (inBlock_self _ _) hp
    have m := ih t' l' hpar hlt (parent_aligned hal) hin hfree'
      (Set.union_eq_left.2 hin)
    have hsub : {f | InBlock f (buddy pfn order) order} ⊆ {f | InBlock f _ _} := fun f hf =>
      (m.hole_iff f (.inr hf)).2 ((inBlock_parent hal).2 (.inr hf))
    refine ⟨?_, m.lists, m.base_mem, m.order_le, m.aligned, ?_, m.freePages_eq, m.freePages_same,
      m.managed_eq, BuddyOnly.trans (BuddyOnly.relabel 0 hb.1 (.inl hb.2.1) (.inr rfl)) m.only,
      m.stopped, fun h => (freeBlock_relabel_tail.1 (m.free_old h)).2⟩
    · have := m.tiling
      rwa [Set.union_assoc, Set.union_eq_right.2 hsub] at this
    · intro f hf
      rw [m.hole_iff f (.inl hf), inBlock_parent hal]
      exact or_iff_left fun h => t.not_mem_hole hb.head_eq h hf
  | case3 pages zone pfn order hge =>
    exact ⟨by rwa [hself], l, hp, hk, hal, fun f _ => Iff.rfl, hfree, rfl, rfl, BuddyOnly.refl _ _,
      fun h => absurd h hge, id⟩

/-- The free blocks of a zone, none of which is free together with its buddy. -/
abbrev CanonicalFree (D : Set ℕ) (pages : PageArray) : Prop :=
  DyadicBlocks.Canonical PMM_MAX_ORDER (FreeBlock D pages)

/-- A new free block keeps the free blocks canonical when its buddy is not free. -/
theorem CanonicalFree.relabel_buddy (hc : CanonicalFree D pages) (hD : p ∈ D) (hal : 2^k ∣ p)
    (hb : k < PMM_MAX_ORDER → ¬ FreeBlock D pages k (buddy p k)) :
    CanonicalFree D (relabel pages p .buddy k) := by
  intro j q hj hq hq'
  rw [freeBlock_relabel_buddy hD] at hq hq'
  rcases hq with ⟨rfl, rfl⟩ | ⟨hne, hq⟩
  · rcases hq' with ⟨h, -⟩ | ⟨-, h⟩
    · exact buddy_ne hal h
    · exact hb hj h
  · rcases hq' with ⟨h, rfl⟩ | ⟨-, h⟩
    · rw [← h, buddy_buddy] at hb
      exact hb hj hq
    · exact hc j q hj hq h

/-- What a call of the core leaves of the zone's invariant, and what it does not touch. `H'` are the
frames held after the call. -/
structure CoreStep (D H' : Set ℕ) (pages : PageArray) (zone : PmmZone) (pages' : PageArray)
    (zone' : PmmZone) : Prop where
  tiling : PageTiling pages' H'
  lists : FreeLists D pages' zone'
  freePages_eq : zone'.freePages = zone'.listedPages
  managed_eq : zone'.managedPages = zone.managedPages
  only : BuddyOnly D pages pages'
  canonical : CanonicalFree D pages → CanonicalFree D pages'

/-- `buddyFreeBlock` on a block of held frames returns exactly these to the tiling. -/
theorem buddyFreeBlock_spec (hD : ChunkClosed D) (t : PageTiling pages H)
    (l : FreeLists D pages zone) (hfree : zone.freePages = zone.listedPages) (hp : pfn ∈ D)
    (hk : order ≤ PMM_MAX_ORDER)
    (hal : 2^order ∣ pfn) (hH : ∀ f, InBlock f pfn order → f ∈ H) :
    CoreStep D (H \ {f | InBlock f pfn order}) pages zone
        (buddyFreeBlock pages zone pfn order).1 (buddyFreeBlock pages zone pfn order).2 ∧
      (buddyFreeBlock pages zone pfn order).2.freePages = zone.freePages + 2^order := by
  have m := buddyMerge_spec hD pages { zone with freePages := zone.freePages + 2^order } pfn order t
    ⟨l.mem_iff, l.nodup, l.freeBlocks_eq⟩ hp hk hal hH (by rw [hfree]; rfl)
  simp only [buddyFreeBlock]
  generalize buddyMerge pages { zone with freePages := zone.freePages + 2^order } pfn order =
    r at m ⊢
  obtain ⟨pages', zone', p, k⟩ := r
  have hptail : (pages' p).state = .tail := m.tiling.hole_tail (.inr (inBlock_self p k))
  refine ⟨⟨?_, m.lists.push m.base_mem (by rw [hptail]; decide), ?_, m.managed_eq, ?_, ?_⟩,
    m.freePages_same⟩
  · have := m.tiling.form (.inl rfl) m.order_le m.aligned (fun f => .inr)
    convert this using 1
    ext f
    simp only [Set.mem_sdiff, Set.mem_ofPred_eq, Set.mem_union]
    have := m.hole_iff f
    tauto
  · rw [listedPages_pushFree zone' p m.order_le, ← m.freePages_eq]
    rfl
  · exact m.only.trans (BuddyOnly.relabel k m.base_mem (.inr hptail) (.inl rfl))
  · intro hc
    exact CanonicalFree.relabel_buddy (fun j q hj hq hq' =>
      hc j q hj (m.free_old hq) (m.free_old hq')) m.base_mem m.aligned m.stopped

/-! ## Allocating a block -/

/-- The split loop, on a held block of order `k`: the frames past the first `2^order` return to the
tiling as free blocks. -/
theorem buddySplit_spec (hD : ChunkClosed D) (hp : pfn ∈ D) :
    ∀ (k : ℕ) {H : Set ℕ} {pages : PageArray} {zone : PmmZone}, PageTiling pages H →
      FreeLists D pages zone → order ≤ k → k ≤ PMM_MAX_ORDER → 2^k ∣ pfn →
      (∀ f, InBlock f pfn k → f ∈ H) → zone.freePages = zone.listedPages + 2^k →
      ∀ {r}, buddySplit pages zone pfn order k = r →
        PageTiling r.1 (H \ {f | InBlock f pfn k ∧ ¬ InBlock f pfn order}) ∧ FreeLists D r.1 r.2 ∧
        r.2.freePages = r.2.listedPages + 2^order ∧ r.2.freePages = zone.freePages ∧
        r.2.managedPages = zone.managedPages ∧ BuddyOnly D pages r.1 ∧
        (CanonicalFree D pages → CanonicalFree D r.1) := by
  have done : ∀ {H : Set ℕ} {k : ℕ}, k = order →
      H \ {f | InBlock f pfn k ∧ ¬ InBlock f pfn order} = H := by
    rintro H k rfl
    simp
  intro k
  induction k with
  | zero =>
    rintro H pages zone t l hok _ _ _ hfree _ rfl
    obtain rfl : order = 0 := by omega
    exact ⟨by rwa [done rfl], l, hfree, rfl, rfl, BuddyOnly.refl _ _, id⟩
  | succ k ih =>
    intro H pages zone t l hok hk hal hH hfree r hr
    simp only [buddySplit] at hr
    split_ifs at hr with hlt
    · have hlow : 2^k ∣ pfn := dvd_trans (pow_dvd_pow 2 (Nat.le_succ k)) hal
      have hup : 2^k ∣ pfn + 2^k := Dvd.dvd.add hlow dvd_rfl
      have hupD : pfn + 2^k ∈ D := hD.mem_of_inBlock hk hal (inBlock_self _ _)
        (inBlock_succ.2 (.inr (inBlock_self _ _))) hp
      have hupH : ∀ f, InBlock f (pfn + 2^k) k → f ∈ H := fun f hf =>
        hH f (inBlock_succ.2 (.inr hf))
      have hpt : (pages pfn).state = .tail := t.hole_tail (hH pfn (inBlock_self _ _))
      have hut : (pages (pfn + 2^k)).state = .tail := t.hole_tail (hupH _ (inBlock_self _ _))
      -- The upper half is a free block now; the lower half is still held.
      have t' := t.form (.inl rfl) (by omega) hup hupH
      have l' := l.push (k := k) hupD (by rw [hut]; decide)
      have hin : ∀ f, InBlock f pfn k → f ∈ H \ {f | InBlock f (pfn + 2^k) k} := by
        intro f hf
        refine ⟨hH f (inBlock_succ.2 (.inl hf)), fun hf' => ?_⟩
        have := InBlock.base_eq hlow hup hf hf'
        omega
      have hfree' : (pushFree zone k (pfn + 2^k)).freePages =
          (pushFree zone k (pfn + 2^k)).listedPages + 2^k := by
        rw [listedPages_pushFree zone _ (by omega)]
        simp only [pushFree]
        omega
      obtain ⟨h1, h2, h3, h4, h5, h6, h7⟩ := ih t' l' (by omega) (by omega) hlow hin hfree' hr
      refine ⟨?_, h2, h3, h4, h5,
        (BuddyOnly.relabel k hupD (.inr hut) (.inl rfl)).trans h6, fun hc => h7 ?_⟩
      · convert h1 using 1
        ext f
        have hle : InBlock f pfn order → InBlock f pfn k :=
          InBlock.nested (dvd_trans (pow_dvd_pow 2 (by omega)) hlow) hlow (by omega)
            (inBlock_self _ _) (inBlock_self _ _)
        have hdisj : InBlock f pfn k → ¬ InBlock f (pfn + 2^k) k := fun hf => (hin f hf).2
        have hiff : InBlock f pfn (k + 1) ↔ InBlock f pfn k ∨ InBlock f (pfn + 2^k) k :=
          inBlock_succ
        simp only [Set.mem_sdiff, Set.mem_ofPred_eq, not_and, not_not]
        tauto
      · refine hc.relabel_buddy hupD hup fun _ hb => ?_
        rw [← buddy_of_lower hal, buddy_buddy] at hb
        have := hb.2.1
        rw [hpt] at this
        cases this
    · subst hr
      obtain rfl : order = k + 1 := by omega
      exact ⟨by rwa [done rfl], l, hfree, rfl, rfl, BuddyOnly.refl _ _, id⟩

/-- `firstFreeOrder` finds the smallest order from `order` up whose list is not empty. -/
theorem firstFreeOrder_eq_some (h : firstFreeOrder zone order = some k) :
    order ≤ k ∧ k ≤ PMM_MAX_ORDER ∧ zone.freeList k ≠ [] := by
  have hmem := mem_of_find?_eq_some h
  have hp := find?_some h
  rw [List.mem_range'_1] at hmem
  refine ⟨hmem.1, ?_, by simpa using hp⟩
  simp only [PMM_ORDER_COUNT, PMM_MAX_ORDER] at *
  omega

/-- `firstFreeOrder` fails when every list from `order` up is empty. -/
theorem firstFreeOrder_eq_none : firstFreeOrder zone order = none ↔
      ∀ k, order ≤ k → k ≤ PMM_MAX_ORDER → zone.freeList k = [] := by
  unfold firstFreeOrder
  rw [find?_eq_none]
  simp only [List.mem_range'_1, Bool.not_eq_true', Bool.not_eq_false, List.isEmpty_iff,
    PMM_ORDER_COUNT, PMM_MAX_ORDER]
  exact ⟨fun h k h1 h2 => h k ⟨h1, by omega⟩, fun h k hk => h k hk.1 (by omega)⟩

/-- `buddyAllocBlock` fails exactly when no list from `order` up has a block. -/
theorem buddyAllocBlock_eq_none : buddyAllocBlock pages zone order = none ↔
      ∀ k, order ≤ k → k ≤ PMM_MAX_ORDER → zone.freeList k = [] := by
  rw [← firstFreeOrder_eq_none]
  unfold buddyAllocBlock
  cases h : firstFreeOrder zone order with
  | none => simp
  | some k =>
    obtain ⟨-, -, hne⟩ := firstFreeOrder_eq_some h
    obtain ⟨p, rest, hl⟩ := exists_cons_of_ne_nil hne
    simp [hl]

/-- The splits do not touch the base of the block. -/
theorem buddySplit_base : (buddySplit pages zone pfn order k).1 pfn = pages pfn := by
  induction k generalizing pages zone with
  | zero => rfl
  | succ k ih =>
    simp only [buddySplit]
    split_ifs
    · rw [ih, relabel_of_ne]
      have := Nat.two_pow_pos k
      omega
    · rfl

/-- `buddyAllocBlock` leaves the block's first frame with order zero. -/
theorem buddyAllocBlock_order (h : buddyAllocBlock pages zone order = some (pfn, pages', zone')) :
    (pages' pfn).order = 0 := by
  unfold buddyAllocBlock at h
  simp only [Option.bind_eq_bind, Option.bind_eq_some_iff, Option.pure_def, Option.some.injEq,
    Prod.mk.injEq] at h
  obtain ⟨k, -, p, -, rfl, rfl, -⟩ := h
  rw [buddySplit_base, relabel_self]

/-- A block that `buddyAllocBlock` returns is aligned, was free, and is held afterwards. -/
theorem buddyAllocBlock_spec (hD : ChunkClosed D) (t : PageTiling pages H)
    (l : FreeLists D pages zone) (hfree : zone.freePages = zone.listedPages)
    (h : buddyAllocBlock pages zone order = some (pfn, pages', zone')) :
    CoreStep D (H ∪ {f | InBlock f pfn order}) pages zone pages' zone' ∧
      zone.freePages = zone'.freePages + 2^order ∧ pfn ∈ D ∧ order ≤ PMM_MAX_ORDER ∧
      2^order ∣ pfn ∧ ∃ k, FreeBlock D pages k pfn ∧ order ≤ k := by
  unfold buddyAllocBlock at h
  simp only [Option.bind_eq_bind, Option.bind_eq_some_iff, Option.pure_def, Option.some.injEq,
    Prod.mk.injEq] at h
  obtain ⟨k, hfirst, p, hhead, rfl, rfl, rfl⟩ := h
  obtain ⟨hok, hk, -⟩ := firstFreeOrder_eq_some hfirst
  have hb : FreeBlock D pages k p := l.mem_iff.1 (mem_of_mem_head? hhead)
  have hal : 2^k ∣ p := t.aligned hb.head_eq
  have hlisted := listedPages_unlink p hk (l.freeBlocks_pos hb)
  have t' := t.dissolve (j := 0) hb.head_eq
  obtain ⟨h1, h2, h3, h4, h5, h6, h7⟩ := buddySplit_spec hD hb.1 k t' (l.unlink hb) hok hk
    hal (fun f => .inr) (by rw [hlisted]; exact hfree) rfl
  generalize buddySplit (relabel pages p .tail 0) (unlink zone k p) p order k = r at *
  obtain ⟨pages', zone'⟩ := r
  have hle : zone'.freePages = zone.freePages := h4
  simp only at h1 h2 h3 h5 h6 h7
  refine ⟨⟨?_, ⟨h2.mem_iff, h2.nodup, h2.freeBlocks_eq⟩, ?_, h5,
    (BuddyOnly.relabel 0 hb.1 (.inl hb.2.1) (.inr rfl)).trans h6, fun hc => h7 ?_⟩, ?_, hb.1,
    by omega, dvd_trans (pow_dvd_pow 2 hok) hal, k, hb, hok⟩
  · convert h1 using 1
    ext f
    have hin : InBlock f p order → InBlock f p k :=
      InBlock.nested (dvd_trans (pow_dvd_pow 2 hok) hal) hal hok (inBlock_self _ _)
        (inBlock_self _ _)
    have hnot : InBlock f p k → f ∉ H := t.not_mem_hole hb.head_eq
    simp only [Set.mem_union, Set.mem_sdiff, Set.mem_ofPred_eq, not_and, not_not]
    tauto
  · show zone'.freePages - 2^order = zone'.listedPages
    omega
  · intro j q hj hq hq'
    exact hc j q hj (freeBlock_relabel_tail.1 hq).2 (freeBlock_relabel_tail.1 hq').2
  · show zone.freePages = zone'.freePages - 2^order + 2^order
    omega

end Bongos.Mm
