import Bongos.Boot.Status
import Bongos.Core.BootInfo
import Bongos.IntervalTiling

/-!
# The loader's heap

`bootheap.c`: an allocator that takes pages off the front of the usable regions between 1 MiB and
4 GiB and never gives them back.
-/

namespace Bongos.Boot

open List

open Bongos.Core

/-- `BOOT_HEAP_MIN`: 1 MiB. -/
def BOOT_HEAP_MIN : BitVec 64 := 0x100000

/-- `BOOT_HEAP_MAX`: 4 GiB. -/
def BOOT_HEAP_MAX : BitVec 64 := 0x100000000

def BOOT_HEAP_PAGE_SIZE : BitVec 64 := 4096

def BOOT_HEAP_MAX_REGIONS : ℕ := 64

/-- `BootHeapRegion`: what is below `base` has been handed out. -/
structure BootHeapRegion where
  base : BitVec 64
  «end» : BitVec 64
  deriving DecidableEq

abbrev BootHeap := List BootHeapRegion

/-- The usable part of a region of the map, if there is one. -/
def heapRegion (r : BootMemRegion) : Option BootHeapRegion :=
  if r.type ≠ BOOT_MEM_USABLE then none
  else
    let base := r.base
    let «end» := base + r.length
    if «end» < base then none
    else
      let base := if base < BOOT_HEAP_MIN then BOOT_HEAP_MIN else base
      let «end» := if «end» > BOOT_HEAP_MAX then BOOT_HEAP_MAX else «end»
      let base := bootAlignUp base BOOT_HEAP_PAGE_SIZE
      let «end» := bootAlignDown «end» BOOT_HEAP_PAGE_SIZE
      if «end» ≤ base then none else some ⟨base, «end»⟩

/-- The loop of `bootHeapInit`. -/
def bootHeapInitLoop : BootHeap → List BootMemRegion → BootStatus × BootHeap
  | heap, [] => (.ok, heap)
  | heap, r :: regions =>
    match heapRegion r with
    | none => bootHeapInitLoop heap regions
    | some h =>
      if heap.length ≥ BOOT_HEAP_MAX_REGIONS then (.errMemmapCapacity, heap)
      else bootHeapInitLoop (heap ++ [h]) regions

def bootHeapInit (regions : List BootMemRegion) : BootStatus × BootHeap :=
  bootHeapInitLoop [] regions

/-- `bootHeapAllocPages`: the address, if a region has room, and the heap. -/
def bootHeapAllocPages : BootHeap → BitVec 32 → Option (BitVec 64) × BootHeap
  | [], _ => (none, [])
  | r :: heap, pages =>
    let need := pages.setWidth 64 * BOOT_HEAP_PAGE_SIZE
    if r.end - r.base ≥ need then (some r.base, { r with base := r.base + need } :: heap)
    else
      let (out, heap) := bootHeapAllocPages heap pages
      (out, r :: heap)

/-- A sequence of calls: the addresses and sizes that were granted, and the heap after them. -/
def allocSequence : BootHeap → List (BitVec 32) → List (BitVec 64 × BitVec 32) × BootHeap
  | heap, [] => ([], heap)
  | heap, pages :: rest =>
    match bootHeapAllocPages heap pages with
    | (none, heap) => allocSequence heap rest
    | (some base, heap) =>
      let (grants, heap) := allocSequence heap rest
      ((base, pages) :: grants, heap)

/-! ## What is granted -/

/-- The interval of a free region. -/
def BootHeapRegion.piece (r : BootHeapRegion) : Piece := (r.base.toNat, r.end.toNat)

/-- The interval of a grant. -/
def grantPiece (g : BitVec 64 × BitVec 32) : Piece := (g.1.toNat, g.1.toNat + g.2.toNat * 4096)

/-- An interval of whole pages of a usable region, between the bounds of the heap. -/
structure HeapPiece (regions : List BootMemRegion) (p : Piece) : Prop where
  le : p.1 ≤ p.2
  fst_dvd : 4096 ∣ p.1
  snd_dvd : 4096 ∣ p.2
  min_le : BOOT_HEAP_MIN.toNat ≤ p.1
  le_max : p.2 ≤ BOOT_HEAP_MAX.toNat
  inside : ∃ r ∈ regions, r.type = BOOT_MEM_USABLE ∧ r.base.toNat ≤ p.1 ∧
    p.2 ≤ r.base.toNat + r.length.toNat

/-- The intervals that are in use and those that are free lie apart. -/
structure HeapOk (regions : List BootMemRegion) (used : List Piece) (heap : BootHeap) : Prop where
  apart : (used ++ heap.map BootHeapRegion.piece).Pairwise Piece.Apart
  piece : ∀ p ∈ used ++ heap.map BootHeapRegion.piece, HeapPiece regions p

variable {regions : List BootMemRegion} {heap : BootHeap} {pages : BitVec 32}
  {used : List Piece}

/-- The usable part of a region. -/
theorem heapRegion_eq_some {r : BootMemRegion} {h : BootHeapRegion}
    (hok : MemMapOk regions) (hr : r ∈ regions) (hsome : heapRegion r = some h) :
    HeapPiece regions h.piece ∧ r.base.toNat ≤ h.base.toNat ∧
      h.end.toNat ≤ r.base.toNat + r.length.toNat := by
  have hreg := hok.region r hr
  have hb := hreg.base_dvd
  have hl := hreg.length_dvd
  have hend := hreg.toNat_end
  have hmin : BOOT_HEAP_MIN.toNat = 0x100000 := rfl
  have hmax : BOOT_HEAP_MAX.toNat = 0x100000000 := rfl
  have hlow : (if r.base < BOOT_HEAP_MIN then BOOT_HEAP_MIN else r.base).toNat =
      max r.base.toNat 0x100000 := by
    split_ifs with hlt'
    · rw [BitVec.lt_def, hmin] at hlt'
      omega
    · rw [BitVec.lt_def, hmin] at hlt'
      omega
  have hhigh : (if r.base + r.length > BOOT_HEAP_MAX then BOOT_HEAP_MAX
      else r.base + r.length).toNat = min (r.base.toNat + r.length.toNat) 0x100000000 := by
    split_ifs with hgt
    · rw [gt_iff_lt, BitVec.lt_def, hmax, hend] at hgt
      omega
    · rw [gt_iff_lt, BitVec.lt_def, hmax, hend] at hgt
      omega
  unfold heapRegion at hsome
  dsimp only at hsome
  generalize (if r.base < BOOT_HEAP_MIN then _ else _ : BitVec 64) = low at hlow hsome
  generalize (if r.base + r.length > BOOT_HEAP_MAX then _ else _ : BitVec 64) = high at hhigh hsome
  -- Both bounds are multiples of the page size already, so that rounding them changes nothing.
  have hup : (bootAlignUp low BOOT_HEAP_PAGE_SIZE).toNat = max r.base.toNat 0x100000 := by
    have := toNat_bootAlignUp low
    refine this.trans ?_
    omega
  have hdown : (bootAlignDown high BOOT_HEAP_PAGE_SIZE).toNat =
      min (r.base.toNat + r.length.toNat) 0x100000000 := by
    have := toNat_bootAlignDown high
    refine this.trans ?_
    omega
  split_ifs at hsome with htype hwrap hempty
  obtain rfl := Option.some.inj hsome
  rw [BitVec.le_def, hup, hdown] at hempty
  rw [not_not] at htype
  unfold BootHeapRegion.piece
  refine ⟨⟨?_, ?_, ?_, ?_, ?_, r, hr, htype, ?_, ?_⟩, ?_, ?_⟩
  all_goals try dsimp only
  all_goals omega

/-- The free regions of a map lie apart, and each in its region. -/
theorem bootHeapInitLoop_spec {front back : List BootMemRegion}
    (hok : MemMapOk regions) (hsplit : regions = front ++ back) (h : HeapOk regions [] heap)
    (hfront : ∀ f ∈ heap, ∀ r ∈ back, f.end.toNat ≤ r.base.toNat) :
    HeapOk regions [] (bootHeapInitLoop heap back).2 := by
  induction back generalizing front heap with
  | nil => exact h
  | cons r back ih =>
    have hr : r ∈ regions := hsplit ▸ mem_append_right _ (mem_cons_self ..)
    have hsplit' : regions = (front ++ [r]) ++ back := by
      rw [hsplit, append_assoc, singleton_append]
    -- The region ends before those behind it.
    have hbefore : ∀ r' ∈ back, RegionBefore r r' := by
      have hsorted := hok.sorted
      rw [hsplit] at hsorted
      exact (pairwise_cons.1 (pairwise_append.1 hsorted).2.1).1
    have hrest : ∀ f ∈ heap, ∀ r' ∈ back, f.end.toNat ≤ r'.base.toNat := fun f hf r' hr' =>
      hfront f hf r' (mem_cons_of_mem _ hr')
    unfold bootHeapInitLoop
    split
    · exact ih hsplit' h hrest
    · next f hsome =>
      split_ifs with hfull
      · exact h
      · obtain ⟨hpiece, hlo, hhi⟩ := heapRegion_eq_some hok hr hsome
        refine ih hsplit' ⟨?_, ?_⟩ ?_
        · rw [nil_append, map_append, map_singleton]
          refine pairwise_append.2 ⟨h.apart, pairwise_singleton _ _, ?_⟩
          intro p hp q hq
          obtain ⟨f', hf', rfl⟩ := mem_map.1 hp
          obtain rfl := mem_singleton.1 hq
          exact .inl (Nat.le_trans (hfront f' hf' r (mem_cons_self ..)) hlo)
        · intro p hp
          rw [nil_append, map_append, map_singleton] at hp
          rcases mem_append.1 hp with hp | hp
          · exact h.piece p hp
          · exact mem_singleton.1 hp ▸ hpiece
        · intro f' hf' r' hr'
          rcases mem_append.1 hf' with hf' | hf'
          · exact hrest f' hf' r' hr'
          · obtain rfl := mem_singleton.1 hf'
            exact Nat.le_trans hhi (hbefore r' hr')

theorem bootHeapInit_ok (hok : MemMapOk regions) : HeapOk regions [] (bootHeapInit regions).2 :=
  bootHeapInitLoop_spec hok (nil_append regions).symm
    ⟨.nil, fun _ hp => absurd hp not_mem_nil⟩ fun _ hf => absurd hf not_mem_nil

/-- The heap after the region `r` has granted some pages. -/
def afterGrant (front : BootHeap) (r : BootHeapRegion) (back : BootHeap) (pages : BitVec 32) :
    BootHeap :=
  front ++ { r with base := r.base + pages.setWidth 64 * BOOT_HEAP_PAGE_SIZE } :: back

/-- A grant is the front of a free region, which keeps the rest. -/
theorem bootHeapAllocPages_cases (heap : BootHeap) (pages : BitVec 32) :
    bootHeapAllocPages heap pages = (none, heap) ∨ ∃ front r back, heap = front ++ r :: back ∧
      pages.setWidth 64 * BOOT_HEAP_PAGE_SIZE ≤ r.end - r.base ∧
      bootHeapAllocPages heap pages = (some r.base, afterGrant front r back pages) := by
  induction heap with
  | nil => exact .inl rfl
  | cons r heap ih =>
    unfold bootHeapAllocPages
    dsimp only
    split_ifs with hfits
    · exact .inr ⟨[], r, heap, rfl, hfits, rfl⟩
    · rcases ih with h | ⟨front, r', back, rfl, hneed, h⟩
      · exact .inl (by rw [h])
      · exact .inr ⟨r :: front, r', back, rfl, hneed, by rw [h]; rfl⟩

/-- A grant takes its interval from the free ones. -/
theorem HeapOk.grant {front back : BootHeap} {r : BootHeapRegion}
    (h : HeapOk regions used (front ++ r :: back))
    (hneed : pages.setWidth 64 * BOOT_HEAP_PAGE_SIZE ≤ r.end - r.base) :
    HeapOk regions (used ++ [grantPiece (r.base, pages)]) (afterGrant front r back pages) := by
  obtain ⟨hle, hfst, hsnd, hmin, hmax, hin⟩ := h.piece r.piece (by simp)
  unfold BootHeapRegion.piece at hle hfst hsnd hmin hmax hin
  -- The size in bytes does not wrap.
  have hbytes : (pages.setWidth 64 * BOOT_HEAP_PAGE_SIZE).toNat = pages.toNat * 4096 := by
    rw [BitVec.toNat_mul, BitVec.toNat_setWidth]
    show pages.toNat % 2^64 * 4096 % 2^64 = _
    omega
  rw [BitVec.le_def, hbytes, BitVec.toNat_sub] at hneed
  have hbase : (r.base + pages.setWidth 64 * BOOT_HEAP_PAGE_SIZE).toNat =
      r.base.toNat + pages.toNat * 4096 := by
    rw [BitVec.toNat_add, hbytes]
    omega
  -- In both lists, the intervals that change can stand in front.
  have hold : (used ++ (front ++ r :: back).map BootHeapRegion.piece).Perm
      (r.piece :: (used ++ (front ++ back).map BootHeapRegion.piece)) := by
    rw [map_append, map_cons, map_append, ← append_assoc, ← append_assoc]
    exact perm_middle
  have hnew : ∀ r', (used ++ [grantPiece (r.base, pages)] ++
      (front ++ r' :: back).map BootHeapRegion.piece).Perm (grantPiece (r.base, pages) ::
        r'.piece :: (used ++ (front ++ back).map BootHeapRegion.piece)) := by
    intro r'
    rw [map_append, map_cons, map_append, append_assoc, singleton_append]
    refine perm_middle.trans (Perm.cons _ ?_)
    rw [← append_assoc, ← append_assoc]
    exact perm_middle
  have hsym : ∀ {p q : Piece}, p.Apart q → q.Apart p := fun h => Or.symm h
  have hapart := (hold.pairwise_iff hsym).1 h.apart
  obtain ⟨hr, hrest⟩ := pairwise_cons.1 hapart
  have hpiece : ∀ p ∈ r.piece :: (used ++ (front ++ back).map BootHeapRegion.piece),
      HeapPiece regions p := fun p hp => h.piece p (hold.mem_iff.2 hp)
  refine ⟨((hnew _).pairwise_iff hsym).2 (pairwise_cons.2 ⟨fun p hp => ?_,
    pairwise_cons.2 ⟨fun p hp => ?_, hrest⟩⟩), fun p hp => ?_⟩
  · rcases mem_cons.1 hp with rfl | hp
    · exact .inl (Nat.le_of_eq hbase.symm)
    · rcases hr p hp with hlt | hgt
      · refine .inl (Nat.le_trans ?_ hlt)
        unfold grantPiece BootHeapRegion.piece
        dsimp only
        omega
      · exact .inr hgt
  · rcases hr p hp with hlt | hgt
    · exact .inl hlt
    · refine .inr (Nat.le_trans hgt ?_)
      unfold BootHeapRegion.piece
      dsimp only
      omega
  · obtain ⟨reg, hreg, htype, hlo, hhi⟩ := hin
    rcases mem_cons.1 ((hnew _).mem_iff.1 hp) with rfl | hp
    · unfold grantPiece
      refine ⟨?_, ?_, ?_, ?_, ?_, reg, hreg, htype, ?_, ?_⟩ <;> dsimp only <;> omega
    · rcases mem_cons.1 hp with rfl | hp
      · unfold BootHeapRegion.piece
        refine ⟨?_, ?_, ?_, ?_, ?_, reg, hreg, htype, ?_, ?_⟩ <;> dsimp only <;> omega
      · exact hpiece p (mem_cons_of_mem _ hp)

/-- All grants of a sequence of calls. -/
theorem HeapOk.allocSequence (h : HeapOk regions used heap) (requests : List (BitVec 32)) :
    HeapOk regions (used ++ (allocSequence heap requests).1.map grantPiece)
      (allocSequence heap requests).2 := by
  induction requests generalizing used heap with
  | nil => simpa [Boot.allocSequence] using h
  | cons pages requests ih =>
    unfold Boot.allocSequence
    rcases bootHeapAllocPages_cases heap pages with ha | ⟨front, r, back, rfl, hneed, ha⟩
    · rw [ha]
      exact ih h
    · have hrec := ih (h.grant hneed)
      rw [append_assoc, singleton_append] at hrec
      rw [ha]
      exact hrec

end Bongos.Boot
