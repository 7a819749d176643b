import Bongos.Mm.PmmMap

/-!
# The span table

What the spans of `pmmMapScan` are for: they say which frames have a `Page` record, in whole chunks
of the largest block. A block, its buddy and its parent lie in one chunk, so the merge loop of
`buddyFreeBlock` and the scan of `pmmValidateForFree` for a double free stay inside the spans. That
they never touch a record outside is said of what they compute: two arrays that agree on the frames
with a record give the same result, and the other records are left as they are
(`buddyFreeBlock_local`).
-/

namespace Bongos.Mm

open Bongos.Core
open DyadicBlocks (InBlock buddy parent)

variable {k pfn : ℕ} {V : Set ℕ} {a b : PageArray}

/-- The two arrays have the same records for the frames of `V`. -/
def AgreeOn (V : Set ℕ) (a b : PageArray) : Prop := ∀ f ∈ V, a f = b f

/-- The frames with a `Page` record. -/
def backedFrames (spans : List PmmSpan) : Set ℕ := {f | pmmPfnValid spans f = true}

/-! ## Chunks -/

theorem two_pow_div_chunk (hk : k < PMM_MAX_ORDER) : 2^k / 2^PMM_MAX_ORDER = 0 :=
  Nat.div_eq_of_lt (Nat.pow_lt_pow_right (by decide) hk)

/-- A buddy lies in the chunk of its block. -/
theorem buddy_chunk (hk : k < PMM_MAX_ORDER) (p : ℕ) :
    buddy p k / 2^PMM_MAX_ORDER = p / 2^PMM_MAX_ORDER := by
  rw [buddy, Nat.xor_div_two_pow, two_pow_div_chunk hk, Nat.xor_zero]

theorem parent_chunk (hk : k < PMM_MAX_ORDER) (p : ℕ) :
    parent p k / 2^PMM_MAX_ORDER = p / 2^PMM_MAX_ORDER := by
  rw [parent, Nat.xor_div_two_pow, Nat.and_div_two_pow, two_pow_div_chunk hk, Nat.and_zero,
    Nat.xor_zero]

/-- The frame below `p` at which a block of order `k` would start. -/
theorem floor_chunk (hk : k ≤ PMM_MAX_ORDER) (p : ℕ) :
    p / 2^k * 2^k / 2^PMM_MAX_ORDER = p / 2^PMM_MAX_ORDER := by
  have hpow : 2^PMM_MAX_ORDER = 2^k * 2^(PMM_MAX_ORDER - k) := by
    rw [← pow_add, Nat.add_sub_cancel' hk]
  calc p / 2^k * 2^k / 2^PMM_MAX_ORDER
      = p / 2^k * 2^k / 2^k / 2^(PMM_MAX_ORDER - k) := by rw [Nat.div_div_eq_div_mul, ← hpow]
    _ = p / 2^k / 2^(PMM_MAX_ORDER - k) := by rw [Nat.mul_div_cancel _ (Nat.two_pow_pos k)]
    _ = p / 2^PMM_MAX_ORDER := by rw [Nat.div_div_eq_div_mul, ← hpow]

/-! ## What the buddy core touches -/

theorem AgreeOn.relabel (h : AgreeOn V a b) (p : ℕ) (s : PageState) (k : ℕ) (hp : p ∈ V) :
    AgreeOn V (relabel a p s k) (relabel b p s k) := by
  intro f hf
  by_cases hfp : f = p
  · rw [hfp, relabel_self, relabel_self, h p hp]
  · rw [relabel_of_ne _ hfp, relabel_of_ne _ hfp, h f hf]

section

variable (hV : ChunkClosed V) (hp : pfn ∈ V) (hab : AgreeOn V a b)

include hV hp hab

/-- The merge loop, on arrays that agree on a set of whole chunks. -/
theorem buddyMerge_local (zone : PmmZone) (order : ℕ) :
    AgreeOn V (buddyMerge a zone pfn order).1 (buddyMerge b zone pfn order).1 ∧
      (buddyMerge a zone pfn order).2 = (buddyMerge b zone pfn order).2 ∧
      (buddyMerge a zone pfn order).2.2.1 ∈ V ∧
      ∀ f ∉ V, (buddyMerge a zone pfn order).1 f = a f := by
  fun_induction buddyMerge a zone pfn order generalizing b with
  | case1 a zone pfn order hlt hstop =>
    have hbuddy : buddy pfn order ∈ V := hV (buddy_chunk hlt pfn).symm hp
    rw [buddyMerge, if_pos hlt, if_pos (by rw [← hab _ hbuddy]; exact hstop)]
    exact ⟨hab, rfl, hp, fun _ _ => rfl⟩
  | case2 a zone pfn order hlt hgo ih =>
    have hbuddy : buddy pfn order ∈ V := hV (buddy_chunk hlt pfn).symm hp
    have hparent : parent pfn order ∈ V := hV (parent_chunk hlt pfn).symm hp
    obtain ⟨hagree, heq, hmem, hout⟩ := ih hparent (hab.relabel _ .tail 0 hbuddy)
    rw [buddyMerge.eq_def b, if_pos hlt, if_neg (by rw [← hab _ hbuddy]; exact hgo)]
    refine ⟨hagree, heq, hmem, fun f hf => ?_⟩
    rw [hout f hf]
    exact relabel_of_ne _ fun hfb => hf (hfb ▸ hbuddy)
  | case3 a zone pfn order hge =>
    rw [buddyMerge, if_neg hge]
    exact ⟨hab, rfl, hp, fun _ _ => rfl⟩

/-- `buddyFreeBlock` reads and writes records of the chunk of its block only. -/
theorem buddyFreeBlock_local (zone : PmmZone) (order : ℕ) :
    AgreeOn V (buddyFreeBlock a zone pfn order).1 (buddyFreeBlock b zone pfn order).1 ∧
      (buddyFreeBlock a zone pfn order).2 = (buddyFreeBlock b zone pfn order).2 ∧
      ∀ f ∉ V, (buddyFreeBlock a zone pfn order).1 f = a f := by
  have hmerge :=
    buddyMerge_local hV hp hab { zone with freePages := zone.freePages + 2^order } order
  simp only [buddyFreeBlock]
  generalize buddyMerge a { zone with freePages := zone.freePages + 2^order } pfn order =
    r at hmerge ⊢
  generalize buddyMerge b { zone with freePages := zone.freePages + 2^order } pfn order =
    r' at hmerge ⊢
  obtain ⟨a', zone1, p, k⟩ := r
  obtain ⟨b', rest⟩ := r'
  obtain ⟨hagree, rfl, hmem, hout⟩ := hmerge
  refine ⟨hagree.relabel _ .buddy _ hmem, rfl, fun f hf => ?_⟩
  have hne : f ≠ p := fun hfp => hf (hfp ▸ hmem)
  exact (relabel_of_ne _ hne).trans (hout f hf)

/-- The scan for a double free reads records of the chunk of the frame only. -/
theorem coveredByFree_local : coveredByFree a pfn = coveredByFree b pfn := by
  unfold coveredByFree
  refine Bool.eq_iff_iff.2 ?_
  rw [List.any_eq_true, List.any_eq_true]
  refine exists_congr fun k => and_congr_right fun hk => ?_
  have hle : k ≤ PMM_MAX_ORDER := Nat.le_of_lt_succ (List.mem_range.1 hk)
  rw [hab _ (hV (floor_chunk hle pfn).symm hp)]

end

/-! ## The table -/

/-- The chunk of a frame holds a frame of a managed region that the direct map reaches. -/
def InManagedChunk (regions : List BootMemRegion) (f : ℕ) : Prop :=
  ∃ g, ManagedFrame regions g ∧ f / 2^PMM_MAX_ORDER = g / 2^PMM_MAX_ORDER

/-- The spans of a scan, as a table of frames and for the search in it. -/
structure SpansExact (regions : List BootMemRegion) (spans : List PmmSpan) : Prop where
  aligned : ∀ s ∈ spans, 2^PMM_MAX_ORDER ∣ s.startPfn ∧ 2^PMM_MAX_ORDER ∣ s.endPfn
  nonempty : ∀ s ∈ spans, s.startPfn < s.endPfn
  /-- Strictly ascending, and no two spans touch. -/
  separated : spans.Pairwise fun a b => a.endPfn < b.startPfn
  cover : ∀ f, (∃ s ∈ spans, s.Has f) ↔ InManagedChunk regions f
  valid_iff : ∀ pfn, pmmPfnValid spans pfn = true ↔ InManagedChunk regions pfn
  buddy_valid : ∀ pfn k, pmmPfnValid spans pfn = true → k < PMM_MAX_ORDER →
    pmmPfnValid spans (buddy pfn k) = true
  /-- `buddyFreeBlock` touches no record without a frame. -/
  free_local : ∀ a b zone pfn order, pmmPfnValid spans pfn = true →
    AgreeOn (backedFrames spans) a b →
      AgreeOn (backedFrames spans) (buddyFreeBlock a zone pfn order).1
        (buddyFreeBlock b zone pfn order).1 ∧
      (buddyFreeBlock a zone pfn order).2 = (buddyFreeBlock b zone pfn order).2 ∧
      ∀ f, pmmPfnValid spans f = false → (buddyFreeBlock a zone pfn order).1 f = a f
  /-- Nor does the scan for a double free. -/
  scan_local : ∀ a b pfn, pmmPfnValid spans pfn = true → AgreeOn (backedFrames spans) a b →
    coveredByFree a pfn = coveredByFree b pfn

/-- **The span table is exact.** -/
theorem pmmMapScan_spansExact (regions : List BootMemRegion) (m : PmmMap)
    (hcheck : bootMemMapCheck regions = .ok ()) (hscan : pmmMapScan regions = .ok m) :
    SpansExact regions m.spans := by
  have h := (pmmMapScan_spec ((bootMemMapCheck_eq_ok regions).1 hcheck) hscan).spans
  -- The spans hold a chunk as a whole or not at all.
  have hV : ChunkClosed (backedFrames m.spans) := by
    intro f g hfg hf
    obtain ⟨n, hn, hfn⟩ := (h.cover f).1 ((h.pmmPfnValid_iff f).1 hf)
    exact (h.pmmPfnValid_iff g).2 ((h.cover g).2 ⟨n, hn, hfg.symm.trans hfn⟩)
  refine ⟨h.aligned, h.nonempty, h.separated, h.cover, fun pfn =>
    (h.pmmPfnValid_iff pfn).trans (h.cover pfn), fun pfn k hp hk => hV (buddy_chunk hk pfn).symm hp,
    fun a b zone pfn order hp hab => ?_, fun a b pfn hp hab => coveredByFree_local hV hp hab⟩
  obtain ⟨hagree, heq, hout⟩ := buddyFreeBlock_local hV hp hab zone order
  refine ⟨hagree, heq, fun f hf => hout f fun hmem => ?_⟩
  exact Bool.false_ne_true (hf.symm.trans hmem)

/-- A usable region and, after a hole of one chunk, the kernel. -/
def twoRegions : List BootMemRegion := [⟨0x100000, 0x300000, BOOT_MEM_USABLE, 0⟩,
  ⟨0x800000, 0x1000, BOOT_MEM_KERNEL, 0⟩]

/-- The table of the two regions has two spans. -/
theorem spansExact_twoRegions : ∃ m, bootMemMapCheck twoRegions = .ok () ∧
    pmmMapScan twoRegions = .ok m ∧ m.spans = [⟨0, 1024⟩, ⟨2048, 3072⟩] ∧
      SpansExact twoRegions m.spans := by
  have hcheck : bootMemMapCheck twoRegions = .ok () := by decide +kernel
  obtain ⟨m, hm⟩ : ∃ m, pmmMapScan twoRegions = .ok m := ⟨_, rfl⟩
  have hspans : m.spans = [⟨0, 1024⟩, ⟨2048, 3072⟩] := by
    have : (pmmMapScan twoRegions).map PmmMap.spans = .ok [⟨0, 1024⟩, ⟨2048, 3072⟩] := by
      decide +kernel
    rw [hm] at this
    exact Except.ok.inj this
  exact ⟨m, hcheck, hm, hspans, pmmMapScan_spansExact _ m hcheck hm⟩

end Bongos.Mm
