import Bongos.Core.BootInfo
import Bongos.FallibleLoop
import Bongos.Mm.KernelLayout
import Bongos.Mm.Pmm
import Mathlib.Data.List.Intervals

/-!
# The scan of the boot memory map

`pmm-map.c` turns the loader's regions into the `PmmMap` that `pmmInit` works from: the spans that
get `Page` records, the usable ranges between 1 MiB and the end of the direct map, the ranges that
are reclaimed later, and the page counts. On a map that `bootMemMapCheck` accepts each of these is
what `Scanned` says, and `pmmPfnValid` finds exactly the frames of the spans. The arrays of the
source are lists, whose lengths are its counts.
-/

namespace Bongos.Mm

open Bongos.Core List

/-- `PMM_LOW_MEM_LIMIT_PFN`: the frames below 1 MiB are withheld. -/
def PMM_LOW_MEM_LIMIT_PFN : ℕ := 0x100000 >>> 12

/-- `PMM_HHDM_LIMIT_PFN`: the frames past the direct map cannot be managed. -/
def PMM_HHDM_LIMIT_PFN : ℕ := BOOTINFO_HHDM_SIZE >>> 12

/-- `PMM_SPAN_ALIGN_PFN`: spans are whole blocks of the largest order. -/
def PMM_SPAN_ALIGN_PFN : ℕ := 2^PMM_MAX_ORDER

def PMM_MAX_SPANS : ℕ := 128

def PMM_MAX_USABLE_RANGES : ℕ := 256

def PMM_MAX_RECLAIM_RANGES : ℕ := 16

structure PmmUsableRange where
  startPfn : ℕ
  endPfn : ℕ
  deriving DecidableEq

/-- `PmmReclaimRange`: a region to reclaim later, as the loader gave it. -/
structure PmmReclaimRange where
  physBase : BitVec 64
  length : BitVec 64
  deriving DecidableEq

/-- `PmmMap`. The page counts are numbers: the regions of an accepted map are disjoint, so no count
reaches `2^52`. -/
structure PmmMap where
  spans : List PmmSpan
  maxPfn : ℕ
  usable : List PmmUsableRange
  loaderReclaim : List PmmReclaimRange
  acpiReclaim : List PmmReclaimRange
  acpiReclaimDroppedPages : ℕ
  lowReservedPages : ℕ
  unmappedPages : ℕ
  typePages : ℕ → ℕ

/-- The zeroed `PmmMap`. -/
def PmmMap.empty : PmmMap := ⟨[], 0, [], [], [], 0, 0, 0, fun _ => 0⟩

/-- `pmmMapTypeIsManaged`: the types that get `Page` records. -/
def pmmMapTypeIsManaged (type : BitVec 32) : Bool :=
  type = BOOT_MEM_USABLE || type = BOOT_MEM_LOADER_RECLAIM || type = BOOT_MEM_KERNEL ||
    type = BOOT_MEM_INITRD || type = BOOT_MEM_ACPI_RECLAIM

/-- `pmmReclaimClip`: what a reclaim may free of a range, as bytes. -/
def pmmReclaimClip (r : PmmReclaimRange) : Option (ℕ × ℕ) :=
  let base := r.physBase.toNat
  let «end» := (r.physBase + r.length).toNat
  let base := if base < PMM_LOW_MEM_LIMIT_PFN <<< 12 then PMM_LOW_MEM_LIMIT_PFN <<< 12 else base
  let «end» := if «end» > PMM_HHDM_LIMIT_PFN <<< 12 then PMM_HHDM_LIMIT_PFN <<< 12 else «end»
  if base ≥ «end» then none else some (base, «end»)

/-- `alignDownPfn`: clears the low bits. -/
def alignDownPfn (pfn : ℕ) : ℕ := pfn / PMM_SPAN_ALIGN_PFN * PMM_SPAN_ALIGN_PFN

def alignUpPfn (pfn : ℕ) : ℕ := alignDownPfn (pfn + PMM_SPAN_ALIGN_PFN - 1)

variable (out : PmmMap)

/-- The end of `pmmAddSpan`: a new last span. -/
def appendSpan (startPfn endPfn : ℕ) : Except Status PmmMap :=
  if out.spans.length ≥ PMM_MAX_SPANS then .error .errInvalid
  else .ok { out with spans := out.spans ++ [⟨startPfn, endPfn⟩] }

/-- `pmmAddSpan`: widens `[startPfn, endPfn)` and merges it into the last span or appends it. -/
def pmmAddSpan (startPfn endPfn : ℕ) : Except Status PmmMap :=
  if startPfn ≥ endPfn then .ok out
  else
    let startPfn := alignDownPfn startPfn
    let endPfn := alignUpPfn endPfn
    match out.spans.getLast? with
    | none => appendSpan out startPfn endPfn
    | some last =>
      if startPfn ≤ last.endPfn then
        .ok { out with
          spans := out.spans.dropLast ++ [{ last with endPfn := max last.endPfn endPfn }] }
      else appendSpan out startPfn endPfn

variable (r : BootMemRegion)

/-- The first frame of a region. -/
def regionStart : ℕ := r.base.toNat >>> 12

/-- The end of a region in frames; the sum is one of 64-bit words. -/
def regionEnd : ℕ := (r.base + r.length).toNat >>> 12

/-- The part of `pmmMapScan`'s loop on a `LOADER_RECLAIM` region. -/
def scanLoader : Except Status PmmMap :=
  if r.type = BOOT_MEM_LOADER_RECLAIM then
    if out.loaderReclaim.length ≥ PMM_MAX_RECLAIM_RANGES then .error .errInvalid
    else .ok { out with loaderReclaim := out.loaderReclaim ++ [⟨r.base, r.length⟩] }
  else .ok out

/-- The part of `pmmMapScan`'s loop on an `ACPI_RECLAIM` region: past the bound it is dropped. -/
def scanAcpi : PmmMap :=
  if r.type = BOOT_MEM_ACPI_RECLAIM then
    if out.acpiReclaim.length ≥ PMM_MAX_RECLAIM_RANGES then
      { out with
        acpiReclaimDroppedPages := out.acpiReclaimDroppedPages + (regionEnd r - regionStart r) }
    else { out with acpiReclaim := out.acpiReclaim ++ [⟨r.base, r.length⟩] }
  else out

/-- Counts the frames of a `USABLE` region below 1 MiB. -/
def countLow : PmmMap :=
  let lowEnd := min (regionEnd r) PMM_LOW_MEM_LIMIT_PFN
  if regionStart r < lowEnd then
    { out with lowReservedPages := out.lowReservedPages + (lowEnd - regionStart r) }
  else out

/-- Counts the frames of a `USABLE` region past the direct map. -/
def countUnmapped : PmmMap :=
  let highStart := max (regionStart r) PMM_HHDM_LIMIT_PFN
  if highStart < regionEnd r then
    { out with unmappedPages := out.unmappedPages + (regionEnd r - highStart) }
  else out

/-- The part of `pmmMapScan`'s loop on a `USABLE` region. -/
def scanUsable : Except Status PmmMap :=
  if r.type = BOOT_MEM_USABLE then
    let out := countLow out r
    let usableStart := max (regionStart r) PMM_LOW_MEM_LIMIT_PFN
    let usableEnd := min (regionEnd r) PMM_HHDM_LIMIT_PFN
    if usableStart < usableEnd then
      if out.usable.length ≥ PMM_MAX_USABLE_RANGES then .error .errInvalid
      else .ok (countUnmapped { out with usable := out.usable ++ [⟨usableStart, usableEnd⟩] } r)
    else .ok (countUnmapped out r)
  else .ok out

/-- The part of `pmmMapScan`'s loop on a managed region. -/
def scanSpan : Except Status PmmMap :=
  if pmmMapTypeIsManaged r.type then
    let clipEnd := min (regionEnd r) PMM_HHDM_LIMIT_PFN
    if regionStart r < clipEnd then pmmAddSpan out (regionStart r) clipEnd else .ok out
  else .ok out

/-- The body of `pmmMapScan`'s loop. -/
def scanRegion : Except Status PmmMap :=
  if r.base &&& 0xFFF ≠ 0 ∨ r.length &&& 0xFFF ≠ 0 then .error .errInvalid
  else if r.type < BOOT_MEM_USABLE ∨ r.type > BOOT_MEM_FRAMEBUFFER then .error .errInvalid
  else do
    let out := { out with
      typePages := Function.update out.typePages r.type.toNat
        (out.typePages r.type.toNat + (regionEnd r - regionStart r)) }
    let out ← scanLoader out r
    let out ← scanUsable (scanAcpi out r) r
    scanSpan out r

def pmmMapScan (regions : List BootMemRegion) : Except Status PmmMap := do
  let out ← regions.foldlM scanRegion .empty
  return { out with maxPfn := (out.spans.getLast?.map PmmSpan.endPfn).getD 0 }

/-! ## The frames of a region -/

theorem lowLimit_eq : PMM_LOW_MEM_LIMIT_PFN = 256 := rfl

theorem hhdmLimit_eq : PMM_HHDM_LIMIT_PFN = 2^34 := rfl

theorem spanAlign_eq : PMM_SPAN_ALIGN_PFN = 1024 := rfl

/-- The frame belongs to the region. -/
def InRegion (f : ℕ) : Prop := regionStart r ≤ f ∧ f < regionEnd r

variable {r : BootMemRegion} {regions : List BootMemRegion} {spans : List PmmSpan}

/-- The bounds of an accepted region are whole pages. -/
theorem regionStart_mul (h : RegionOk r) : regionStart r * 4096 = r.base.toNat := by
  have := h.base_dvd
  rw [regionStart, Nat.shiftRight_eq_div_pow]
  omega

theorem regionEnd_mul (h : RegionOk r) : regionEnd r * 4096 = r.base.toNat + r.length.toNat := by
  have := h.base_dvd
  have := h.length_dvd
  rw [regionEnd, h.toNat_end, Nat.shiftRight_eq_div_pow]
  omega

/-- Regions that follow one another have frames that follow one another. -/
theorem regionEnd_le_regionStart {a b : BootMemRegion} (h : RegionBefore a b) (ha : RegionOk a)
    (hb : RegionOk b) : regionEnd a ≤ regionStart b := by
  have h1 := regionEnd_mul ha
  have h2 := regionStart_mul hb
  have : a.base.toNat + a.length.toNat ≤ b.base.toNat := h
  omega

/-- A frame belongs to one region at most. -/
theorem region_unique (h : MemMapOk regions)
    {r' : BootMemRegion} {f : ℕ} (hr : r ∈ regions) (hr' : r' ∈ regions) (hf : InRegion r f)
    (hf' : InRegion r' f) : r = r' := by
  -- The first byte of the frame is in both.
  have hbyte : ∀ a ∈ regions, InRegion a f →
      a.base.toNat ≤ f * 4096 ∧ f * 4096 < a.base.toNat + a.length.toNat := by
    rintro a ha ⟨hstart, hend⟩
    have h1 := regionStart_mul (h.region a ha)
    have h2 := regionEnd_mul (h.region a ha)
    omega
  exact h.region_unique hr hr' (hbyte r hr hf) (hbyte r' hr' hf')

/-! ## The spans -/

/-- The frames `pfn` of a span. -/
def PmmSpan.Has (s : PmmSpan) (pfn : ℕ) : Prop := s.startPfn ≤ pfn ∧ pfn < s.endPfn

/-- A frame of a managed region that the direct map reaches. -/
def ManagedFrame (regions : List BootMemRegion) (f : ℕ) : Prop :=
  ∃ r ∈ regions, pmmMapTypeIsManaged r.type ∧ InRegion r f ∧ f < PMM_HHDM_LIMIT_PFN

/-- The spans after some regions: aligned, strictly ascending, no two of them touching, and together
the aligned chunks that hold a managed frame. -/
structure SpanTable (regions : List BootMemRegion) (spans : List PmmSpan) : Prop where
  aligned : ∀ s ∈ spans, PMM_SPAN_ALIGN_PFN ∣ s.startPfn ∧ PMM_SPAN_ALIGN_PFN ∣ s.endPfn
  nonempty : ∀ s ∈ spans, s.startPfn < s.endPfn
  separated : spans.Pairwise fun a b => a.endPfn < b.startPfn
  cover : ∀ f, (∃ s ∈ spans, s.Has f) ↔
    ∃ g, ManagedFrame regions g ∧ f / PMM_SPAN_ALIGN_PFN = g / PMM_SPAN_ALIGN_PFN
  /-- Every span starts below the end of the regions. -/
  start_le : ∀ s ∈ spans, ∀ b, (∀ r ∈ regions, regionEnd r ≤ b) → s.startPfn ≤ b

theorem SpanTable.nil : SpanTable [] [] :=
  ⟨by simp, by simp, .nil, by simp [ManagedFrame], by simp⟩

/-- Widening `[a, b)` takes in exactly the chunks that it meets. -/
theorem widen_iff {a b : ℕ} (h : a < b) (f : ℕ) : (alignDownPfn a ≤ f ∧ f < alignUpPfn b) ↔
      ∃ g, a ≤ g ∧ g < b ∧ f / PMM_SPAN_ALIGN_PFN = g / PMM_SPAN_ALIGN_PFN := by
  simp only [alignUpPfn, alignDownPfn, spanAlign_eq]
  constructor
  · intro hf
    -- The chunk of `f` starts inside the range, or it is the chunk of `a`.
    by_cases hc : a ≤ f / 1024 * 1024
    · exact ⟨f / 1024 * 1024, hc, by omega, by omega⟩
    · exact ⟨a, le_rfl, h, by omega⟩
  · rintro ⟨g, ha, hb, hg⟩
    omega

/-- `PmmSpan.Has` for the span that widening gives. -/
theorem SpanTable.cover_add (h : SpanTable regions spans) (hm : pmmMapTypeIsManaged r.type)
    (hlt : regionStart r < min (regionEnd r) PMM_HHDM_LIMIT_PFN) (f : ℕ) :
    ((∃ s ∈ spans, s.Has f) ∨ (alignDownPfn (regionStart r) ≤ f ∧
        f < alignUpPfn (min (regionEnd r) PMM_HHDM_LIMIT_PFN))) ↔
      ∃ g, ManagedFrame (regions ++ [r]) g ∧ f / PMM_SPAN_ALIGN_PFN = g / PMM_SPAN_ALIGN_PFN := by
  rw [h.cover, widen_iff hlt]
  constructor
  · rintro (⟨g, ⟨r', hr', hg⟩, hfg⟩ | ⟨g, h1, h2, hfg⟩)
    · exact ⟨g, ⟨r', mem_append_left _ hr', hg⟩, hfg⟩
    · rw [lt_min_iff] at h2
      exact ⟨g, ⟨r, mem_append_right _ (mem_singleton_self r), hm, ⟨h1, h2.1⟩, h2.2⟩, hfg⟩
  · rintro ⟨g, ⟨r', hr', hm', hg, hlim⟩, hfg⟩
    rcases mem_append.1 hr' with hr' | hr'
    · exact .inl ⟨g, ⟨r', hr', hm', hg, hlim⟩, hfg⟩
    · rw [mem_singleton] at hr'
      subst hr'
      exact .inr ⟨g, hg.1, lt_min hg.2 hlim, hfg⟩

/-- A region that adds no frame to the managed ones changes no span. -/
theorem SpanTable.skip (h : SpanTable regions spans)
    (hr : ∀ f, pmmMapTypeIsManaged r.type → InRegion r f → ¬ f < PMM_HHDM_LIMIT_PFN) :
    SpanTable (regions ++ [r]) spans := by
  refine ⟨h.aligned, h.nonempty, h.separated, fun f => ?_, fun s hs b hb =>
    h.start_le s hs b fun r' hr' => hb r' (mem_append_left _ hr')⟩
  rw [h.cover]
  constructor
  · rintro ⟨g, ⟨r', hr', hg⟩, hfg⟩
    exact ⟨g, ⟨r', mem_append_left _ hr', hg⟩, hfg⟩
  · rintro ⟨g, ⟨r', hr', hm, hg, hlim⟩, hfg⟩
    rcases mem_append.1 hr' with hr' | hr'
    · exact ⟨g, ⟨r', hr', hm, hg, hlim⟩, hfg⟩
    · rw [mem_singleton] at hr'
      subst hr'
      exact absurd hlim (hr g hm hg)

section Add

variable {regions : List BootMemRegion} {spans : List PmmSpan} {r : BootMemRegion}

/-- Widening gives a nonempty aligned span. -/
theorem widen_spec {a b : ℕ} (h : a < b) : alignDownPfn a < alignUpPfn b ∧ alignDownPfn a ≤ a ∧
    PMM_SPAN_ALIGN_PFN ∣ alignDownPfn a ∧ PMM_SPAN_ALIGN_PFN ∣ alignUpPfn b := by
  simp only [alignUpPfn, alignDownPfn, spanAlign_eq]
  omega

/-- The spans there are start at or before the widened start of a region after the others. -/
theorem SpanTable.start_le_alignDown (h : SpanTable regions spans)
    (hafter : ∀ r' ∈ regions, regionEnd r' ≤ regionStart r) :
    ∀ s ∈ spans, s.startPfn ≤ alignDownPfn (regionStart r) := by
  intro s hs
  have hle := h.start_le s hs _ hafter
  have hdvd := (h.aligned s hs).1
  simp only [alignDownPfn, spanAlign_eq] at hdvd ⊢
  omega

variable (hm : pmmMapTypeIsManaged r.type)
  (hlt : regionStart r < min (regionEnd r) PMM_HHDM_LIMIT_PFN)
  (hafter : ∀ r' ∈ regions, regionEnd r' ≤ regionStart r)
include hlt

theorem alignDown_le_of_regionEnd_le {c : ℕ} (hc : ∀ r' ∈ regions ++ [r], regionEnd r' ≤ c) :
    alignDownPfn (regionStart r) ≤ c := by
  have hr := hc r (mem_append_right _ (mem_singleton_self r))
  have hle := (widen_spec hlt).2.1
  omega

include hm hafter

/-- A region whose chunks lie past all spans adds a span. -/
theorem SpanTable.append (h : SpanTable regions spans)
    (hlast : ∀ s ∈ spans, s.endPfn < alignDownPfn (regionStart r)) :
    SpanTable (regions ++ [r]) (spans ++ [⟨alignDownPfn (regionStart r),
      alignUpPfn (min (regionEnd r) PMM_HHDM_LIMIT_PFN)⟩]) := by
  obtain ⟨hne, -, hda, hdb⟩ := widen_spec hlt
  refine ⟨?_, ?_, ?_, fun f => ?_, ?_⟩
  · exact forall_mem_append.2 ⟨h.aligned, by simpa using ⟨hda, hdb⟩⟩
  · exact forall_mem_append.2 ⟨h.nonempty, by simpa using hne⟩
  · exact pairwise_append.2 ⟨h.separated, pairwise_singleton _ _, by simpa using hlast⟩
  · rw [← h.cover_add hm hlt f]
    simp [or_and_right, exists_or, PmmSpan.Has]
  · refine forall_mem_append.2 ⟨fun s hs c hc => ?_, ?_⟩
    · exact (h.start_le_alignDown hafter s hs).trans (alignDown_le_of_regionEnd_le hlt hc)
    · rw [forall_mem_singleton]
      exact fun c hc => alignDown_le_of_regionEnd_le hlt hc

/-- A region whose chunks meet or touch the last span widens it. -/
theorem SpanTable.merge {init : List PmmSpan} {last : PmmSpan}
    (h : SpanTable regions (init ++ [last]))
    (hle : alignDownPfn (regionStart r) ≤ last.endPfn) :
    SpanTable (regions ++ [r]) (init ++ [{ last with
      endPfn := max last.endPfn (alignUpPfn (min (regionEnd r) PMM_HHDM_LIMIT_PFN)) }]) := by
  obtain ⟨-, -, -, hdb⟩ := widen_spec hlt
  set e := alignUpPfn (min (regionEnd r) PMM_HHDM_LIMIT_PFN) with he
  have hstart := h.start_le_alignDown hafter
  obtain ⟨hal, hlal⟩ := forall_mem_append.1 h.aligned
  obtain ⟨hne, hlne⟩ := forall_mem_append.1 h.nonempty
  obtain ⟨hinit, -, hbefore⟩ := pairwise_append.1 h.separated
  obtain ⟨hsi, hsl⟩ := forall_mem_append.1 hstart
  rw [forall_mem_singleton] at hlal hlne hsl
  refine ⟨?_, ?_, ?_, fun f => ?_, ?_⟩
  · refine forall_mem_append.2 ⟨hal, ?_⟩
    rw [forall_mem_singleton]
    refine ⟨hlal.1, ?_⟩
    rcases max_choice last.endPfn e with hmax | hmax <;> simp only [hmax]
    · exact hlal.2
    · exact hdb
  · refine forall_mem_append.2 ⟨hne, ?_⟩
    rw [forall_mem_singleton]
    exact hlne.trans_le (le_max_left _ _)
  · exact pairwise_append.2 ⟨hinit, pairwise_singleton _ _, by simpa using hbefore⟩
  · rw [← h.cover_add hm hlt f]
    -- The last span starts first and reaches the new one, so their union is one span.
    have hjoin : (last.startPfn ≤ f ∧ f < max last.endPfn e) ↔
        (last.startPfn ≤ f ∧ f < last.endPfn) ∨ (alignDownPfn (regionStart r) ≤ f ∧ f < e) := by
      omega
    simp only [mem_append, mem_singleton, or_and_right, exists_or, exists_eq_left,
      PmmSpan.Has, hjoin, ← he, or_assoc]
  · refine forall_mem_append.2 ⟨fun s hs c hc => ?_, ?_⟩
    · exact (hsi s hs).trans (alignDown_le_of_regionEnd_le hlt hc)
    · rw [forall_mem_singleton]
      exact fun c hc => hsl.trans (alignDown_le_of_regionEnd_le hlt hc)

/-- `pmmAddSpan` on a region after the others. -/
theorem pmmAddSpan_spec {out out' : PmmMap} (h : SpanTable regions out.spans)
    (hadd : pmmAddSpan out (regionStart r) (min (regionEnd r) PMM_HHDM_LIMIT_PFN) = .ok out') :
    ∃ spans, SpanTable (regions ++ [r]) spans ∧ out' = { out with spans := spans } := by
  unfold pmmAddSpan at hadd
  rw [if_neg (not_le.2 hlt)] at hadd
  have happ : (∀ s ∈ out.spans, s.endPfn < alignDownPfn (regionStart r)) →
      appendSpan out (alignDownPfn (regionStart r))
        (alignUpPfn (min (regionEnd r) PMM_HHDM_LIMIT_PFN)) = .ok out' →
      ∃ spans, SpanTable (regions ++ [r]) spans ∧ out' = { out with spans := spans } := by
    intro hlast hok
    unfold appendSpan at hok
    split_ifs at hok
    cases hok
    exact ⟨_, h.append hm hlt hafter hlast, rfl⟩
  rcases eq_nil_or_concat out.spans with hnil | ⟨init, last, hspans⟩
  · rw [hnil] at hadd
    exact happ (by simp [hnil]) hadd
  rw [concat_eq_append] at hspans
  rw [hspans, getLast?_concat] at hadd
  rw [hspans] at h
  dsimp only at hadd
  split_ifs at hadd with hmerge
  · cases hadd
    rw [dropLast_concat]
    exact ⟨_, h.merge hm hlt hafter hmerge, rfl⟩
  · refine happ (hspans ▸ forall_mem_append.2 ⟨fun s hs => ?_, ?_⟩) hadd
    · obtain ⟨-, -, hbefore⟩ := pairwise_append.1 h.separated
      have h1 := hbefore s hs last (mem_singleton_self last)
      have h2 := h.nonempty last (mem_append_right _ (mem_singleton_self last))
      omega
    · rw [forall_mem_singleton]
      exact not_le.1 hmerge

end Add

variable {spans : List PmmSpan}

/-- The binary search finds a span of `spans[lo, hi)` that has the frame, if there is one. -/
theorem pmmPfnValidIn_iff (hne : ∀ s ∈ spans, s.startPfn < s.endPfn)
    (hsep : spans.Pairwise fun a b => a.endPfn < b.startPfn) (pfn : ℕ) {lo hi : ℕ}
    (hhi : hi ≤ spans.length) :
    pmmPfnValidIn spans pfn lo hi = true ↔
      ∃ i, ∃ h : i < spans.length, lo ≤ i ∧ i < hi ∧ (spans[i]).Has pfn := by
  have hord : ∀ i j (hi : i < spans.length) (hj : j < spans.length), i < j →
      spans[i].endPfn < spans[j].startPfn := pairwise_iff_getElem.1 hsep
  fun_induction pmmPfnValidIn spans pfn lo hi with
  | case1 lo hi hlt mid s hbelow ih =>
    have hmid : mid < spans.length := by omega
    have hs : s = spans[mid] := getD_eq_getElem _ _ hmid
    refine (ih (by omega)).trans ⟨?_, ?_⟩
    · rintro ⟨i, h, hlo, him, hhas⟩
      exact ⟨i, h, hlo, by omega, hhas⟩
    · rintro ⟨i, h, hlo, him, hhas⟩
      refine ⟨i, h, hlo, ?_, hhas⟩
      -- The spans from `mid` on start past the frame.
      by_contra hge
      rcases (not_lt.1 hge).eq_or_lt with rfl | hmi
      · exact absurd hhas.1 (not_le.2 (hs ▸ hbelow))
      · have h1 := hord mid i hmid h hmi
        have h2 := hne spans[mid] (getElem_mem hmid)
        have h3 := hhas.1
        rw [hs] at hbelow
        omega
  | case2 lo hi hlt mid s hbelow habove ih =>
    have hmid : mid < spans.length := by omega
    have hs : s = spans[mid] := getD_eq_getElem _ _ hmid
    refine (ih hhi).trans ⟨?_, ?_⟩
    · rintro ⟨i, h, hlo, him, hhas⟩
      exact ⟨i, h, by omega, him, hhas⟩
    · rintro ⟨i, h, hlo, him, hhas⟩
      refine ⟨i, h, ?_, him, hhas⟩
      -- The spans up to `mid` end before the frame.
      by_contra hle
      have hhas' := hhas.2
      rw [hs] at habove
      rcases (Nat.le_of_lt_succ (not_le.1 hle)).eq_or_lt with rfl | hmi
      · omega
      · have h1 := hord i mid h hmid hmi
        have h2 := hne spans[mid] (getElem_mem hmid)
        omega
  | case3 lo hi hlt mid s hbelow habove =>
    have hmid : mid < spans.length := by omega
    have hs : s = spans[mid] := getD_eq_getElem _ _ hmid
    refine iff_of_true rfl ⟨mid, hmid, by omega, by omega, ?_⟩
    rw [hs] at hbelow habove
    exact ⟨not_lt.1 hbelow, not_le.1 habove⟩
  | case4 lo hi hlt => simp; omega

variable {regions : List BootMemRegion}

/-- `pmmPfnValid` holds of exactly the frames of the spans. -/
theorem SpanTable.pmmPfnValid_iff (h : SpanTable regions spans) (pfn : ℕ) :
    pmmPfnValid spans pfn = true ↔ ∃ s ∈ spans, s.Has pfn := by
  rw [pmmPfnValid, pmmPfnValidIn_iff h.nonempty h.separated pfn le_rfl]
  constructor
  · rintro ⟨i, hi, -, -, hhas⟩
    exact ⟨_, getElem_mem hi, hhas⟩
  · rintro ⟨s, hs, hhas⟩
    obtain ⟨i, hi, rfl⟩ := mem_iff_getElem.1 hs
    exact ⟨i, hi, Nat.zero_le i, hi, hhas⟩

/-- A managed frame has a `Page` record. -/
theorem SpanTable.valid (h : SpanTable regions spans) {f : ℕ} (hf : ManagedFrame regions f) :
    pmmPfnValid spans f = true :=
  (h.pmmPfnValid_iff f).2 ((h.cover f).2 ⟨f, hf, rfl⟩)

/-! ## The scan -/

/-- The pages of a region. -/
def regionPages (r : BootMemRegion) : ℕ := regionEnd r - regionStart r

/-- What is managed of a region: its frames between 1 MiB and the end of the direct map. -/
def regionClip (r : BootMemRegion) : Option PmmUsableRange :=
  if max (regionStart r) PMM_LOW_MEM_LIMIT_PFN < min (regionEnd r) PMM_HHDM_LIMIT_PFN then
    some ⟨max (regionStart r) PMM_LOW_MEM_LIMIT_PFN, min (regionEnd r) PMM_HHDM_LIMIT_PFN⟩
  else none

/-- A region as it is recorded for a reclaim. -/
def reclaimRange (r : BootMemRegion) : PmmReclaimRange := ⟨r.base, r.length⟩

/-- The regions of a type. -/
def ofType (regions : List BootMemRegion) (type : BitVec 32) : List BootMemRegion :=
  regions.filter fun r => r.type = type

/-- The `PmmMap` of some regions. -/
structure Scanned (regions : List BootMemRegion) (m : PmmMap) : Prop where
  spans : SpanTable regions m.spans
  typePages_eq : ∀ type, m.typePages type.toNat = ((ofType regions type).map regionPages).sum
  usable_eq : m.usable = (ofType regions BOOT_MEM_USABLE).filterMap regionClip
  loader_eq : m.loaderReclaim = (ofType regions BOOT_MEM_LOADER_RECLAIM).map reclaimRange
  /-- The `ACPI_RECLAIM` regions past the bound are not recorded. -/
  acpi_eq : m.acpiReclaim =
    ((ofType regions BOOT_MEM_ACPI_RECLAIM).take PMM_MAX_RECLAIM_RANGES).map reclaimRange
  /-- Every usable page is withheld, usable, or out of reach. -/
  pages_eq : m.typePages BOOT_MEM_USABLE.toNat = m.lowReservedPages +
    (m.usable.map fun u => u.endPfn - u.startPfn).sum + m.unmappedPages

theorem Scanned.empty : Scanned [] .empty := by
  refine ⟨.nil, ?_, ?_, ?_, ?_, ?_⟩ <;> simp [ofType, PmmMap.empty]

theorem ofType_concat (type : BitVec 32) :
    ofType (regions ++ [r]) type = ofType regions type ++ if r.type = type then [r] else [] := by
  by_cases h : r.type = type <;> simp [ofType, h]

variable {out out' m : PmmMap}

variable {r : BootMemRegion}

theorem scanLoader_ok (h : scanLoader out r = .ok out') :
    out' = { out with loaderReclaim := out.loaderReclaim ++
      if r.type = BOOT_MEM_LOADER_RECLAIM then [reclaimRange r] else [] } := by
  unfold scanLoader at h
  split_ifs at h with htype
  · cases h; rw [if_pos htype]; rfl
  · cases h; simp [htype]

theorem scanAcpi_eq (h : out.acpiReclaim =
      ((ofType regions BOOT_MEM_ACPI_RECLAIM).take PMM_MAX_RECLAIM_RANGES).map reclaimRange) :
    ∃ dropped, scanAcpi out r = { out with
      acpiReclaim := ((ofType (regions ++ [r]) BOOT_MEM_ACPI_RECLAIM).take
        PMM_MAX_RECLAIM_RANGES).map reclaimRange
      acpiReclaimDroppedPages := dropped } := by
  unfold scanAcpi
  rw [ofType_concat, h]
  split_ifs with htype hfull
  · -- The table is full, so the first regions of the type stay the same.
    have hlen : PMM_MAX_RECLAIM_RANGES ≤ (ofType regions BOOT_MEM_ACPI_RECLAIM).length := by
      simpa using hfull
    rw [take_append_of_le_length hlen]
    exact ⟨_, rfl⟩
  · have hlen : (ofType regions BOOT_MEM_ACPI_RECLAIM).length < PMM_MAX_RECLAIM_RANGES := by
      simpa using hfull
    rw [take_of_length_le hlen.le,
      take_of_length_le (by rw [length_append]; exact hlen), map_append]
    exact ⟨_, rfl⟩
  · rw [append_nil, ← h]
    exact ⟨_, rfl⟩

/-- Where a part of a region is empty, the source adds nothing and the sum adds zero. -/
theorem countLow_eq : countLow out r = { out with lowReservedPages := out.lowReservedPages +
      (min (regionEnd r) PMM_LOW_MEM_LIMIT_PFN - regionStart r) } := by
  unfold countLow
  dsimp only
  split_ifs with hlt
  · rfl
  · rw [Nat.sub_eq_zero_of_le (not_lt.1 hlt), Nat.add_zero]

theorem countUnmapped_eq : countUnmapped out r = { out with unmappedPages := out.unmappedPages +
      (regionEnd r - max (regionStart r) PMM_HHDM_LIMIT_PFN) } := by
  unfold countUnmapped
  dsimp only
  split_ifs with hlt
  · rfl
  · rw [Nat.sub_eq_zero_of_le (not_lt.1 hlt), Nat.add_zero]

theorem scanUsable_ok (h : scanUsable out r = .ok out') :
    out' = if r.type = BOOT_MEM_USABLE then { out with
        usable := out.usable ++ (regionClip r).toList
        lowReservedPages := out.lowReservedPages +
          (min (regionEnd r) PMM_LOW_MEM_LIMIT_PFN - regionStart r)
        unmappedPages := out.unmappedPages +
          (regionEnd r - max (regionStart r) PMM_HHDM_LIMIT_PFN) }
      else out := by
  unfold scanUsable at h
  by_cases htype : r.type = BOOT_MEM_USABLE
  · rw [if_pos htype] at h ⊢
    simp only [countLow_eq, countUnmapped_eq] at h
    unfold regionClip
    split_ifs at h with hclip
    · cases h
      rw [if_pos hclip]
      rfl
    · cases h
      rw [if_neg hclip, Option.toList_none, append_nil]
  · rw [if_neg htype] at h ⊢
    cases h
    rfl

/-- The three parts of a region make up the region. -/
theorem regionPages_eq (r : BootMemRegion) :
    regionPages r = (min (regionEnd r) PMM_LOW_MEM_LIMIT_PFN - regionStart r) +
      ((regionClip r).toList.map fun u => u.endPfn - u.startPfn).sum +
      (regionEnd r - max (regionStart r) PMM_HHDM_LIMIT_PFN) := by
  unfold regionClip regionPages
  split_ifs with hclip
  · simp only [Option.toList_some, map_cons, map_nil, sum_cons, sum_nil,
      lowLimit_eq, hhdmLimit_eq] at hclip ⊢
    omega
  · simp only [Option.toList_none, map_nil, sum_nil, lowLimit_eq, hhdmLimit_eq] at hclip ⊢
    omega

theorem scanSpan_ok
    (hspans : SpanTable regions out.spans) (hafter : ∀ r' ∈ regions, regionEnd r' ≤ regionStart r)
    (h : scanSpan out r = .ok out') :
    ∃ spans, SpanTable (regions ++ [r]) spans ∧ out' = { out with spans := spans } := by
  unfold scanSpan at h
  dsimp only at h
  split_ifs at h with hm hlt
  · exact pmmAddSpan_spec hm hlt hafter hspans h
  · cases h
    refine ⟨_, hspans.skip fun f _ hf hlim => hlt ?_, rfl⟩
    exact lt_min (hf.1.trans_lt hf.2) (hf.1.trans_lt hlim)
  · cases h
    exact ⟨_, hspans.skip fun f hm' => absurd hm' hm, rfl⟩

/-- One round of the scan. -/
theorem Scanned.step {m' : PmmMap} (h : Scanned regions m)
    (hafter : ∀ r' ∈ regions, regionEnd r' ≤ regionStart r) (hscan : scanRegion m r = .ok m') :
    Scanned (regions ++ [r]) m' := by
  unfold scanRegion at hscan
  split_ifs at hscan
  obtain ⟨m1, h1, hscan⟩ := FallibleLoop.bind_eq_ok.1 hscan
  obtain ⟨m2, h2, h3⟩ := FallibleLoop.bind_eq_ok.1 hscan
  have e1 := scanLoader_ok h1
  have hacpi : m1.acpiReclaim =
      ((ofType regions BOOT_MEM_ACPI_RECLAIM).take PMM_MAX_RECLAIM_RANGES).map reclaimRange := by
    rw [e1]
    exact h.acpi_eq
  obtain ⟨dropped, ea⟩ := scanAcpi_eq hacpi
  have e2 := scanUsable_ok h2
  rw [ea, e1] at e2
  have hspans : SpanTable regions m2.spans := by
    rw [e2]
    split_ifs <;> exact h.spans
  obtain ⟨spans, htable, rfl⟩ := scanSpan_ok hspans hafter h3
  have htypes : ∀ type : BitVec 32, Function.update m.typePages r.type.toNat
      (m.typePages r.type.toNat + (regionEnd r - regionStart r)) type.toNat =
        ((ofType (regions ++ [r]) type).map regionPages).sum := fun type => by
    rw [ofType_concat, map_append, sum_append, ← h.typePages_eq]
    by_cases htype : r.type = type
    · subst htype; simp [regionPages]
    · have hne : type.toNat ≠ r.type.toNat := fun he => htype (BitVec.eq_of_toNat_eq he.symm)
      simp [htype, hne]
  have hloader : m.loaderReclaim ++ (if r.type = BOOT_MEM_LOADER_RECLAIM then [reclaimRange r]
      else []) = (ofType (regions ++ [r]) BOOT_MEM_LOADER_RECLAIM).map reclaimRange := by
    rw [ofType_concat, map_append, ← h.loader_eq]
    split_ifs <;> rfl
  have hpages := h.pages_eq
  by_cases hu : r.type = BOOT_MEM_USABLE
  · rw [if_pos hu] at e2
    subst e2
    refine ⟨htable, htypes, ?_, hloader, rfl, ?_⟩
    · show m.usable ++ (regionClip r).toList = _
      rw [ofType_concat, if_pos hu, filterMap_append, ← h.usable_eq]
      cases hclip : regionClip r <;> simp [hclip]
    · have hr := regionPages_eq r
      rw [regionPages] at hr
      simp only [hu, Function.update_self, map_append, sum_append]
      omega
  · rw [if_neg hu] at e2
    subst e2
    refine ⟨htable, htypes, ?_, hloader, rfl, ?_⟩
    · show m.usable = _
      rw [ofType_concat, if_neg hu, append_nil]
      exact h.usable_eq
    · have hne : BOOT_MEM_USABLE.toNat ≠ r.type.toNat := fun he =>
        hu (BitVec.eq_of_toNat_eq he.symm)
      simpa only [Function.update_of_ne hne] using hpages

/-- `pmmMapScan` on an accepted map. -/
theorem pmmMapScan_spec (hmap : MemMapOk regions)
    (h : pmmMapScan regions = .ok m) : Scanned regions m := by
  obtain ⟨out, hfold, hm⟩ := FallibleLoop.bind_eq_ok.1 h
  have hout : Scanned regions out := by
    refine FallibleLoop.foldlM_ok hfold .empty fun {seen r rest _ _} hl hs hstep => ?_
    have hsorted := hl ▸ hmap.sorted
    have hmem : ∀ r' ∈ seen ++ r :: rest, RegionOk r' := hl ▸ hmap.region
    refine hs.step (fun r' hr' => ?_) hstep
    have hbefore := (pairwise_append.1 hsorted).2.2 r' hr' r mem_cons_self
    exact regionEnd_le_regionStart hbefore (hmem r' (by simp [hr'])) (hmem r (by simp))
  cases hm
  exact ⟨hout.spans, hout.typePages_eq, hout.usable_eq, hout.loader_eq, hout.acpi_eq, hout.pages_eq⟩

end Bongos.Mm
