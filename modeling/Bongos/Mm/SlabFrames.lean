import Bongos.Mm.SlabMarks

/-!
# The frames that a slab call touches

A call writes the records of two kinds of frames: those that the memory manager has just handed out,
which it marks, and those of the slabs that it returns, which it unmarks (`FramesGrow`,
`FramesShrink`). The records of all other frames, allocated to others or free, stay as they are, and
a change of those records leaves the slabs as they are (`SlabWorldInv.setPages`).
-/

namespace Bongos.Mm

open FallibleState List

open DyadicBlocks (InBlock)

variable {s s' s'' : SlabState} {c a : ℕ} {held : ℕ → List ℕ}

/-- The frame is allocated, and not as a page table: the memory manager has handed it to `vmalloc`
or to another caller, or it carries the mark of an owner. The slab allocator's own frames are known
by their mark. -/
def SlabState.Allocated (s : SlabState) (f : ℕ) : Prop :=
  (s.pages f).state = .allocated ∨ (s.pages f).flags &&& PAGE_F_OWNER_MASK ≠ 0

/-- The record of a frame that joins a slab. -/
def markedPage (page : Page) (slab : ℕ) : Page :=
  { page with flags := page.flags ||| PAGE_F_SLAB, privateWord := slab }

/-- The record of a frame whose owner gives it up. -/
def unmarkedPage (page : Page) : Page :=
  { page with flags := page.flags &&& (0xFFFF - PAGE_F_OWNER_MASK), privateWord := 0 }

variable {n f p : ℕ} {pmm : PmmAnswers}

theorem owner_mask_slab (h : n &&& PAGE_F_SLAB ≠ 0) : n &&& PAGE_F_OWNER_MASK ≠ 0 := by
  rw [PAGE_F_OWNER_MASK, Nat.and_or_distrib_left]
  exact fun h0 => h (Nat.or_eq_zero_iff.1 h0).1

theorem owner_mask_vmalloc (h : n &&& PAGE_F_VMALLOC ≠ 0) : n &&& PAGE_F_OWNER_MASK ≠ 0 := by
  rw [PAGE_F_OWNER_MASK, Nat.and_or_distrib_left]
  exact fun h0 => h (Nat.or_eq_zero_iff.1 h0).2

theorem markedPage_slab (page : Page) (slab : ℕ) :
    (markedPage page slab).flags &&& PAGE_F_SLAB ≠ 0 := by
  simp only [markedPage, Nat.and_or_distrib_right]
  exact fun h => absurd (Nat.or_eq_zero_iff.1 h).2 (by decide)

theorem unmarkedPage_owner (page : Page) : (unmarkedPage page).flags &&& PAGE_F_OWNER_MASK = 0 := by
  simp only [unmarkedPage, Nat.and_assoc]
  exact Nat.and_zero _

theorem SlabState.Marked.allocated (h : s.Marked f) : s.Allocated f := .inr (owner_mask_slab h)

/-! ## Growth -/

/-- A call that marks frames that were not allocated, and writes no other record. -/
structure FramesGrow (s s' : SlabState) : Prop where
  inUse_eq : s'.inUse = s.inUse
  spans_eq : s'.spans = s.spans
  pages : ∀ f, s'.pages f = s.pages f ∨
    ¬ s.Allocated f ∧ ∃ slab, s'.pages f = markedPage (s.pages f) slab

theorem FramesGrow.refl (s : SlabState) : FramesGrow s s := ⟨rfl, rfl, fun _ => .inl rfl⟩

theorem KeepsSlabs.framesGrow (h : KeepsSlabs s s') : FramesGrow s s' :=
  ⟨h.inUse_eq, h.spans_eq, fun f => .inl (congrFun h.pages_eq f)⟩

theorem FramesGrow.trans (h : FramesGrow s s') (h' : FramesGrow s' s'') : FramesGrow s s'' := by
  refine ⟨h'.inUse_eq.trans h.inUse_eq, h'.spans_eq.trans h.spans_eq, fun f => ?_⟩
  rcases h.pages f with h1 | ⟨hfree, slab, h1⟩
  · rcases h'.pages f with h2 | ⟨hfree, slab, h2⟩
    · exact .inl (h2.trans h1)
    · rw [SlabState.Allocated, h1] at hfree
      exact .inr ⟨hfree, slab, h2.trans (by rw [h1])⟩
  · rcases h'.pages f with h2 | ⟨hfree', -⟩
    · exact .inr ⟨hfree, slab, h2.trans h1⟩
    · -- The frame is in a slab by now.
      refine absurd (.inr (owner_mask_slab ?_)) hfree'
      rw [h1]
      exact markedPage_slab _ _

theorem FramesGrow.not_allocated (h : FramesGrow s s') (hf : ¬ s'.Allocated f) :
    ¬ s.Allocated f := by
  rcases h.pages f with he | ⟨hfree, -⟩
  · rwa [SlabState.Allocated, ← he]
  · exact hfree

/-- Blocks that are handed out are not allocated. -/
def PmmUnallocated (pmm : PmmAnswers) : Prop :=
  ∀ s order pfn, pmm s order = some pfn → ∀ f, InBlock f pfn order → ¬ s.Allocated f

theorem slabPick_framesGrow (hfree : PmmUnallocated pmm)
    (h : slabPick pmm s c = some (a, s')) : FramesGrow s s' := by
  rcases slabPick_cases h with ⟨rfl, -⟩ | ⟨s1, hg, rfl⟩
  · exact .refl _
  · obtain ⟨pfn, hp, -, rfl⟩ := slabGrow_eq_some hg
    refine ⟨rfl, rfl, fun f => ?_⟩
    by_cases hin : InBlock f pfn (s.caches c).layout.order
    · exact .inr ⟨hfree s _ pfn hp f hin, _, if_pos hin⟩
    · exact .inl (if_neg hin)

theorem slabRefillLocked_framesGrow (hfree : PmmUnallocated pmm) (need : ℕ) :
    FramesGrow s (slabRefillLocked pmm c need s) :=
  slabRefillLocked_rule need (fun h hp => h.trans (slabPick_framesGrow hfree hp))
    (fun hkeep h => h.trans hkeep.framesGrow) (.refl s)

/-- The magazine of a cache has room for one object. -/
def SlabState.HasRoom (s : SlabState) (c : ℕ) : Prop :=
  (s.caches c).bspMag.rounds.length < (s.caches c).bspMag.capacity

/-- `slabAlloc` marks the frames of the slabs that it adds. After it has taken an object, the
magazine has room for one. -/
theorem slabAlloc_framesGrow (hfresh : PmmFresh pmm) (hfree : PmmUnallocated pmm)
    (w : SlabWorldInv ⟨s, held⟩) {flags : BitVec 32} {r : Option ℕ}
    (h : slabAlloc pmm s c flags = .ok (r, s')) :
    FramesGrow s s' ∧ (r ≠ none → s'.HasRoom c) := by
  unfold slabAlloc at h
  split_ifs at h with h1 h2 h3
  have hc := inUse_of_live h3
  have htop : FramesGrow s (slabTopUp pmm s c) := by
    unfold slabTopUp
    split_ifs
    · exact slabRefillLocked_framesGrow hfree _
    · exact .refl s
  obtain ⟨-, -, -, hle, -⟩ := slabTopUp_spec w hc hfresh
  simp only at h
  split at h
  · cases h; exact ⟨htop, fun h => absurd rfl h⟩
  next obj hlast =>
    cases h
    refine ⟨htop.trans ⟨rfl, rfl, fun _ => .inl rfl⟩, fun _ => ?_⟩
    have hpos := length_pos_of_mem (mem_of_getLast? hlast)
    simp only [SlabState.HasRoom, SlabState.setCache, Function.update_self, length_dropLast]
    omega

/-! ## Release -/

/-- A call that unmarks frames of slabs, and writes no other record. -/
structure FramesShrink (s s' : SlabState) : Prop where
  inUse_eq : s'.inUse = s.inUse
  spans_eq : s'.spans = s.spans
  pages : ∀ f, s'.pages f = s.pages f ∨ s.Marked f ∧ s'.pages f = unmarkedPage (s.pages f)

theorem FramesShrink.refl (s : SlabState) : FramesShrink s s := ⟨rfl, rfl, fun _ => .inl rfl⟩

theorem KeepsSlabs.framesShrink (h : KeepsSlabs s s') : FramesShrink s s' :=
  ⟨h.inUse_eq, h.spans_eq, fun f => .inl (congrFun h.pages_eq f)⟩

theorem FramesShrink.trans (h : FramesShrink s s') (h' : FramesShrink s' s'') :
    FramesShrink s s'' := by
  refine ⟨h'.inUse_eq.trans h.inUse_eq, h'.spans_eq.trans h.spans_eq, fun f => ?_⟩
  rcases h.pages f with h1 | ⟨hmark, h1⟩
  · rcases h'.pages f with h2 | ⟨hmark, h2⟩
    · exact .inl (h2.trans h1)
    · rw [SlabState.Marked, h1] at hmark
      exact .inr ⟨hmark, h2.trans (by rw [h1])⟩
  · rcases h'.pages f with h2 | ⟨hmark', -⟩
    · exact .inr ⟨hmark, h2.trans h1⟩
    · rw [SlabState.Marked, h1] at hmark'
      exact absurd (unmarkedPage_owner _) (owner_mask_slab hmark')

/-- `slabReclaimEmptyLocked` unmarks the frames of the slabs that it returns. -/
theorem slabReclaimEmptyLocked_framesShrink {out : ℕ → List ℕ} (keep : ℕ) (hc : s.inUse c = true)
    (v : SlabInv s out idle) : FramesShrink s (slabReclaimEmptyLocked s c keep) := by
  fun_induction slabReclaimEmptyLocked s c keep with
  | case1 s hgt hnil => exact .refl s
  | case3 s hle => exact .refl s
  | case2 s hgt a rest hl s1 ih =>
    obtain ⟨v', -⟩ := v.release hc rfl hl rfl
    have ha : a ∈ (s.caches c).lists .onEmpty := by rw [hl]; exact mem_cons_self
    have o := (v c hc).slab ha
    obtain ⟨pfn, hpfn, -, hframes⟩ := o.frames
    have hstep : FramesShrink s (slabReleaseToPmm s1 a) := by
      refine ⟨rfl, rfl, fun f => ?_⟩
      by_cases hin : InBlock f ((a - BOOTINFO_HHDM_BASE) >>> 12) (s.slabs a).order
      · refine .inr ⟨?_, if_pos hin⟩
        rw [hpfn, pfn_of_addr, ← hpfn, o.order_eq] at hin
        exact (hframes f hin).2.1
      · exact .inl (if_neg hin)
    exact hstep.trans (ih hc v')

/-- `slabFree` unmarks the frames of the slabs that it returns, and returns none when the magazine
has room. -/
theorem slabFree_framesShrink (w : SlabWorldInv ⟨s, held⟩) (hp : p ∈ held c)
    (h : exec (slabFree c p) s = (.ok ⟨⟩, s')) :
    FramesShrink s s' ∧ (s.HasRoom c → s'.pages = s.pages) := by
  obtain ⟨hc, k, a, ha, i, hi, hslot, hr, hcache, hne⟩ := w.held_slot hp
  unfold slabFree at h
  rw [exec_get_bind, if_neg hne, hr] at h
  dsimp only at h
  rw [if_neg (not_not.2 hcache), slabFreeCommon, exec_get_bind] at h
  split_ifs at h
  · cases h
  obtain ⟨⟨⟩, t, hroom, h⟩ := exec_bind_eq_ok h
  cases h
  suffices FramesShrink s t ∧ (s.HasRoom c → t.pages = s.pages) from
    ⟨this.1.trans ⟨rfl, rfl, fun _ => .inl rfl⟩, this.2⟩
  unfold slabMakeRoom at hroom
  rw [exec_get_bind] at hroom
  dsimp only at hroom
  split_ifs at hroom with hfull
  · refine ⟨?_, fun hlt => absurd hlt (not_lt.2 hfull)⟩
    -- The older half of the magazine goes back to the slabs, and then the empty ones go.
    obtain ⟨s1, -, h1, hdrop, v1, -⟩ := slabFlush_spec w hc SLAB_EMPTY_KEEP true
      (take_append_drop (s.caches c).bspMag.batch (s.caches c).bspMag.rounds).symm
    have hbatch : (s.caches c).bspMag.batch = (s.caches c).bspMag.capacity / 2 :=
      (w.inv c hc).batch_eq
    rw [length_take_of_le (by omega)] at hdrop
    rw [exec_bind_of_ok h1, exec_modify_bind, hdrop] at hroom
    cases hroom
    have hpush := KeepsSlabs.pushRounds h1
    exact (hpush.trans (.setRounds _)).framesShrink.trans
      (slabReclaimEmptyLocked_framesShrink _ (hpush.inUse_eq ▸ hc) v1)
  · cases hroom
    exact ⟨.refl s, fun _ => rfl⟩

/-! ## The frames of others -/

/-- What others write to the records of frames that are in no slab does not matter. -/
theorem SlabWorldInv.setPages (w : SlabWorldInv ⟨s, held⟩) {pages : PageArray}
    (hpages : ∀ f, s.Marked f → pages f = s.pages f) :
    SlabWorldInv ⟨{ s with pages := pages }, held⟩ :=
  w.others (fun _ _ _ => rfl) hpages

end Bongos.Mm
