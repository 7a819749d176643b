import Bongos.Mm.SlabRun

/-!
# The frames that are marked as slabs

`slabResolvePointer` trusts the mark on a page record: it follows the record of any marked frame to
a slab header. `MarksExact` says that this is safe, every marked frame belongs to a slab on a list
of a cache in use, and every call keeps it. The runs here are those of `SlabStep` together with
`slabCacheDestroy`, and with the writes of everyone else to memory that is in no slab.
-/

namespace Bongos.Mm

open FallibleState List

open Function (update update_of_ne update_self)

open DyadicBlocks (InBlock)

open SlabState (setCache setSlab)

variable {s s' : SlabState} {c a : ℕ} {held : ℕ → List ℕ}

/-- The slab at `a` is on a list of the cache `c`. -/
def SlabState.Listed (s : SlabState) (c a : ℕ) : Prop :=
  s.inUse c = true ∧ ∃ k, a ∈ (s.caches c).lists k

/-- The record of the frame `f` carries the mark of a slab. -/
def SlabState.Marked (s : SlabState) (f : ℕ) : Prop := (s.pages f).flags &&& PAGE_F_SLAB ≠ 0

/-- Every marked frame is in a slab of a cache in use. -/
def MarksExact (s : SlabState) : Prop :=
  ∀ f, s.Marked f → ∃ c a, s.Listed c a ∧
    InBlock f ((a - BOOTINFO_HHDM_BASE) >>> 12) (s.slabs a).order

/-- A change that marks no frame and loses no slab. -/
theorem MarksExact.mono (m : MarksExact s) (hpages : s'.pages = s.pages)
    (horder : ∀ a, (s'.slabs a).order = (s.slabs a).order)
    (hlisted : ∀ c a, s.Listed c a → s'.Listed c a) : MarksExact s' := by
  intro f hf
  rw [SlabState.Marked, hpages] at hf
  obtain ⟨c, a, hl, hin⟩ := m f hf
  exact ⟨c, a, hlisted c a hl, by rwa [horder]⟩

/-! ## Calls that neither mark frames nor lose slabs -/

/-- A part of a call that writes no page record and takes no slab off all lists. -/
structure KeepsSlabs (s s' : SlabState) : Prop where
  inUse_eq : s'.inUse = s.inUse
  pages_eq : s'.pages = s.pages
  spans_eq : s'.spans = s.spans
  listed : ∀ c a, s.Listed c a → s'.Listed c a
  order_eq : ∀ a, (s'.slabs a).order = (s.slabs a).order

namespace KeepsSlabs

theorem refl (s : SlabState) : KeepsSlabs s s := ⟨rfl, rfl, rfl, fun _ _ h => h, fun _ => rfl⟩

theorem trans {s'' : SlabState} (h : KeepsSlabs s s') (h' : KeepsSlabs s' s'') : KeepsSlabs s s'' :=
  ⟨h'.inUse_eq.trans h.inUse_eq, h'.pages_eq.trans h.pages_eq, h'.spans_eq.trans h.spans_eq,
    fun c a hl => h'.listed c a (h.listed c a hl), fun a => (h'.order_eq a).trans (h.order_eq a)⟩

theorem marksExact (h : KeepsSlabs s s') (m : MarksExact s) : MarksExact s' :=
  m.mono h.pages_eq h.order_eq h.listed

theorem setSlab {slab : Slab} (ho : slab.order = (s.slabs a).order) :
    KeepsSlabs s (s.setSlab a slab) := by
  refine ⟨rfl, rfl, rfl, fun _ _ h => h, fun b => ?_⟩
  by_cases hb : b = a
  · subst hb; simpa [SlabState.setSlab] using ho
  · simp [SlabState.setSlab, hb]

/-- A cache is rewritten, and its slabs are still on its lists. -/
theorem setCache {cache : SlabCache}
    (hl : ∀ k, ∀ a ∈ (s.caches c).lists k, ∃ k', a ∈ cache.lists k') :
    KeepsSlabs s (s.setCache c cache) := by
  refine ⟨rfl, rfl, rfl, fun c' a h => ⟨h.1, ?_⟩, fun _ => rfl⟩
  obtain ⟨k, ha⟩ := h.2
  by_cases hc : c' = c
  · subst hc
    obtain ⟨k', ha'⟩ := hl k a ha
    exact ⟨k', by simpa [SlabState.setCache] using ha'⟩
  · exact ⟨k, by simpa [SlabState.setCache, hc] using ha⟩

theorem setRounds (rounds : List ℕ) : KeepsSlabs s (s.setRounds c rounds) :=
  setCache fun k _ ha => ⟨k, ha⟩

/-- A slab that moves between lists is still on one, and so are the others. -/
theorem rehome (s : SlabState) (c a : ℕ) : KeepsSlabs s (slabRehomeLocked s c a) := by
  unfold slabRehomeLocked
  simp only
  split_ifs
  · exact refl s
  · refine (setCache fun k b hb => ?_).trans (setSlab rfl)
    generalize (s.slabs a).list = old
    generalize slabWant (s.slabs a) = want
    simp only [moveSlab]
    by_cases hba : b = a
    · exact ⟨want, by simp [hba]⟩
    · have hkeep : b ∈ update (s.caches c).lists old (((s.caches c).lists old).erase a) k := by
        by_cases hk : k = old
        · subst hk
          rw [update_self]
          exact (mem_erase_of_ne hba).2 hb
        · rwa [update_of_ne hk]
      refine ⟨k, ?_⟩
      by_cases hk : k = want
      · subst hk
        rw [update_self]
        exact mem_cons_of_mem a hkeep
      · rwa [update_of_ne hk]

theorem take (c a need : ℕ) (s : SlabState) : KeepsSlabs s (slabTake c a need s).2 := by
  induction need generalizing s with
  | zero => exact refl s
  | succ need ih =>
    simp only [slabTake]
    split_ifs
    · refine ((setSlab ?_).trans (setRounds _)).trans (ih _)
      rfl
    · exact refl s

theorem push {p : ℕ} (h : exec (slabPushObjectLocked c p) s = (.ok ⟨⟩, s')) : KeepsSlabs s s' := by
  unfold slabPushObjectLocked at h
  rw [exec_get_bind] at h
  split at h
  · cases h
  · split_ifs at h
    · cases h
    cases h
    refine (setSlab ?_).trans (rehome _ _ _)
    rfl

theorem pushRounds {clear : Bool} {n : ℕ} {l : List ℕ}
    (h : exec (slabPushRounds c clear n l) s = (.ok ⟨⟩, s')) : KeepsSlabs s s' := by
  induction l generalizing s n with
  | nil =>
    cases h
    exact refl _
  | cons p l ih =>
    obtain ⟨⟨⟩, t, hp, h⟩ := exec_bind_eq_ok h
    rw [exec_modify_bind] at h
    refine (push hp).trans (KeepsSlabs.trans ?_ (ih h))
    split_ifs
    · exact setRounds _
    · exact refl t

end KeepsSlabs

/-! ## Growth and release -/

variable {pages : PageArray} {pmm : PmmAnswers} {flags : BitVec 32}

/-- The unmarked frames are not marked. -/
theorem untagPages_of_inBlock {pfn order f : ℕ} (h : InBlock f pfn order) :
    (untagPages pages pfn order f).flags &&& PAGE_F_SLAB = 0 := by
  simp only [untagPages, if_pos h]
  rw [Nat.and_assoc]
  exact Nat.and_zero _

/-- The frames of a new slab are marked when it joins the list of empty slabs. -/
theorem slabPick_marksExact (hfresh : PmmFresh pmm) (hc : s.inUse c = true)
    (m : MarksExact s) (h : slabPick pmm s c = some (a, s')) :
    MarksExact s' ∧ s'.inUse = s.inUse := by
  rcases slabPick_cases h with ⟨rfl, -⟩ | ⟨s1, hg, rfl⟩
  · exact ⟨m, rfl⟩
  · obtain ⟨pfn, hp, rfl, rfl⟩ := slabGrow_eq_some hg
    refine ⟨fun f hf => ?_, rfl⟩
    obtain ⟨-, hblock⟩ := hfresh s _ pfn hp
    by_cases hin : InBlock f pfn (s.caches c).layout.order
    · refine ⟨c, BOOTINFO_HHDM_BASE + pfn * 4096, ⟨hc, .onEmpty, ?_⟩, ?_⟩
      · simp [slabAddEmpty, setSlab, setCache]
      · rw [pfn_of_addr]
        simpa [slabAddEmpty, setSlab, setCache, newSlab, slabCarve] using hin
    · -- The frame was marked before, and its slab is not the new one, whose frames are fresh.
      have hold : s.Marked f := by
        simpa [SlabState.Marked, slabAddEmpty, setSlab, setCache, tagPages, if_neg hin] using hf
      obtain ⟨c', b, ⟨hc', k, hb⟩, hbf⟩ := m f hold
      have hne : b ≠ BOOTINFO_HHDM_BASE + pfn * 4096 := by
        rintro rfl
        refine (hblock pfn (DyadicBlocks.inBlock_self _ _)).2 c' k _ hc' hb ?_
        rw [pfn_of_addr]
        exact DyadicBlocks.inBlock_self _ _
      refine ⟨c', b, ⟨hc', ?_⟩, ?_⟩
      · by_cases hcc : c' = c
        · subst hcc
          refine ⟨k, ?_⟩
          by_cases hk : k = .onEmpty
          · subst hk; simp [slabAddEmpty, setSlab, setCache, hb]
          · simp [slabAddEmpty, setSlab, setCache, hk, hb]
        · exact ⟨k, by simpa [slabAddEmpty, setSlab, setCache, hcc] using hb⟩
      · simpa [slabAddEmpty, setSlab, setCache, hne] using hbf

/-- What the choice of a slab keeps, and what does not depend on the lists, a refill keeps. -/
theorem slabRefillLocked_rule {P : SlabState → Prop} (need : ℕ)
    (hpick : ∀ {s s' a}, P s → slabPick pmm s c = some (a, s') → P s')
    (hkeep : ∀ {s s'}, KeepsSlabs s s' → P s → P s') (h : P s) :
    P (slabRefillLocked pmm c need s) := by
  fun_induction slabRefillLocked pmm c need s with
  | case1 need s _ _ => exact h
  | case2 need s _ a s1 hp r s2 _ ih =>
    exact ih (hkeep ((KeepsSlabs.take c a need s1).trans (.rehome _ c a)) (hpick h hp))
  | case3 need s _ a s1 hp r s2 _ =>
    exact hkeep ((KeepsSlabs.take c a need s1).trans (.rehome _ c a)) (hpick h hp)
  | case4 => exact h

theorem slabRefillLocked_marksExact (hfresh : PmmFresh pmm) (need : ℕ)
    (hc : s.inUse c = true) (m : MarksExact s) : MarksExact (slabRefillLocked pmm c need s) := by
  refine (slabRefillLocked_rule (P := fun s =>
    s.inUse c = true ∧ MarksExact s) need ?_ ?_ ⟨hc, m⟩).2
  · rintro s s' a ⟨hc, m⟩ hp
    obtain ⟨m', hin⟩ := slabPick_marksExact hfresh hc m hp
    exact ⟨by rwa [hin], m'⟩
  · rintro s s' hkeep ⟨hc, m⟩
    exact ⟨by rwa [hkeep.inUse_eq], hkeep.marksExact m⟩

/-- A slab that is released loses the marks of its frames. -/
theorem slabReclaimEmptyLocked_marksExact (c keep : ℕ) (m : MarksExact s) :
    MarksExact (slabReclaimEmptyLocked s c keep) := by
  fun_induction slabReclaimEmptyLocked s c keep with
  | case1 s hgt hnil => exact m
  | case3 s hle => exact m
  | case2 s hgt a rest hl s1 ih =>
    refine ih fun f hf => ?_
    have hout : ¬ InBlock f ((a - BOOTINFO_HHDM_BASE) >>> 12) (s.slabs a).order := fun hin =>
      hf (untagPages_of_inBlock hin)
    have hold : s.Marked f := by
      simpa [SlabState.Marked, slabReleaseToPmm, setSlab, s1, setCache,
        untagPages, if_neg hout] using hf
    obtain ⟨c', b, ⟨hc', k, hb⟩, hbf⟩ := m f hold
    have hba : b ≠ a := fun e => hout (e ▸ hbf)
    refine ⟨c', b, ⟨hc', k, ?_⟩, ?_⟩
    · by_cases hcc : c' = c
      · subst hcc
        by_cases hk : k = .onEmpty
        · subst hk
          rw [hl] at hb
          simpa [slabReleaseToPmm, setSlab, s1, setCache] using
            (mem_cons.1 hb).resolve_left hba
        · simpa [slabReleaseToPmm, setSlab, s1, setCache, hk] using hb
      · simpa [slabReleaseToPmm, setSlab, s1, setCache, hcc] using hb
    · simpa [slabReleaseToPmm, setSlab, s1, setCache, hba] using hbf

/-! ## The calls -/

theorem slabAlloc_marksExact {r : Option ℕ}
    (hfresh : PmmFresh pmm) (m : MarksExact s) (h : slabAlloc pmm s c flags = .ok (r, s')) :
    MarksExact s' := by
  unfold slabAlloc at h
  split_ifs at h with h1 h2 h3
  have hc := inUse_of_live h3
  have mtop : MarksExact (slabTopUp pmm s c) := by
    unfold slabTopUp
    split_ifs
    · exact slabRefillLocked_marksExact hfresh _ hc m
    · exact m
  simp only at h
  split at h
  · cases h; exact mtop
  · cases h
    refine (KeepsSlabs.setCache ?_).marksExact mtop
    exact fun k _ ha => ⟨k, ha⟩

theorem slabFreeCommon_marksExact {i p : ℕ} (m : MarksExact s)
    (h : exec (slabFreeCommon c a i p) s = (.ok ⟨⟩, s')) : MarksExact s' := by
  unfold slabFreeCommon at h
  rw [exec_get_bind] at h
  split_ifs at h
  · cases h
  obtain ⟨⟨⟩, t, hroom, h⟩ := exec_bind_eq_ok h
  cases h
  refine (KeepsSlabs.setCache ?_).marksExact ?_
  · exact fun k _ ha => ⟨k, ha⟩
  unfold slabMakeRoom at hroom
  rw [exec_get_bind] at hroom
  dsimp only at hroom
  split_ifs at hroom
  · obtain ⟨⟨⟩, t', hpush, hroom⟩ := exec_bind_eq_ok hroom
    cases hroom
    exact slabReclaimEmptyLocked_marksExact _ _
      (((KeepsSlabs.pushRounds hpush).trans (KeepsSlabs.setRounds _)).marksExact m)
  · cases hroom; exact m

theorem slabCacheShrink_marksExact (m : MarksExact s)
    (h : exec (slabCacheShrink c) s = (.ok ⟨⟩, s')) : MarksExact s' := by
  obtain ⟨⟨⟩, t, hflush, h⟩ := exec_bind_eq_ok h
  cases h
  obtain ⟨⟨⟩, t, hpush, ht⟩ :=
    exec_bind_eq_ok (show exec (slabPushRounds _ _ _ _ >>= _) s = _ from hflush)
  cases ht
  exact slabReclaimEmptyLocked_marksExact _ _
    (((KeepsSlabs.pushRounds hpush).trans (.setRounds _)).marksExact m)

theorem slabCacheCreate_marksExact {objSize align : ℕ} {ctor debug : Bool}
    (m : MarksExact s)
    (h : slabCacheCreateInternal s objSize align ctor flags debug = .ok (c, s')) :
    MarksExact s' := by
  obtain ⟨al, -, -, -, hnot, rfl⟩ := slabCacheCreate_eq_ok h
  refine m.mono rfl (fun _ => rfl) fun c' a ⟨hc', k, ha⟩ => ?_
  have hne : c' ≠ c := by rintro rfl; rw [hnot] at hc'; cases hc'
  exact ⟨by simpa [hne] using hc', k, by simpa [setCache, hne] using ha⟩

/-! ## Destroying a cache -/

/-- With nothing to keep, no empty slab is left. -/
theorem slabReclaimEmptyLocked_zero (s : SlabState) (c : ℕ) :
    ((slabReclaimEmptyLocked s c 0).caches c).emptySlabCount = 0 ∨
      ((slabReclaimEmptyLocked s c 0).caches c).lists .onEmpty = [] := by
  fun_induction slabReclaimEmptyLocked s c 0 with
  | case1 s hgt hnil => exact Or.inr hnil
  | case2 s hgt a rest hl s1 ih => exact ih
  | case3 s hle => exact Or.inl (by omega)

/-- A cache that is destroyed has no slab left, so no caller holds an object of it. -/
theorem slabCacheDestroy_spec (w : SlabWorldInv ⟨s, held⟩) (m : MarksExact s)
    (h : exec (slabCacheDestroy c) s = (.ok ⟨⟩, s')) : SlabWorldInv ⟨s', held⟩ ∧ MarksExact s' := by
  unfold slabCacheDestroy at h
  rw [exec_get_bind] at h
  split_ifs at h with hlive
  iterate 2 · cases h
  have hc := inUse_of_live hlive
  obtain ⟨t, hshrink, wt, sh, hrounds, -⟩ := slabCacheShrink_spec w hc
  have mt := slabCacheShrink_marksExact m hshrink
  -- `slabCacheDestroy` begins as `slabCacheShrink` does.
  obtain ⟨⟨⟩, t0, hflush, ht⟩ := exec_bind_eq_ok hshrink
  cases ht
  dsimp only at wt mt sh
  rw [exec_bind_of_ok hflush, exec_modify_bind, exec_get_bind] at h
  have hzero := slabReclaimEmptyLocked_zero t0 c
  generalize slabReclaimEmptyLocked t0 c 0 = t at *
  split_ifs at h with hbusy
  · cases h
  cases h
  simp only [ne_eq, not_or, not_not] at hbusy
  have hct : t.inUse c = true := sh.inUse hc
  have v := wt.inv c hct
  have hnil : ∀ k, (t.caches c).lists k = [] := by
    intro k
    cases k with
    | onNone => exact v.onNone_eq
    | onPartial => exact hbusy.1
    | onFull => exact hbusy.2
    | onEmpty =>
      refine hzero.elim (fun h0 => ?_) id
      exact length_eq_zero_iff.1 (v.counts.2.symm.trans h0)
  have hheld : held c = [] := by
    refine eq_nil_iff_forall_not_mem.2 fun p hp => ?_
    obtain ⟨k, a, ha, -⟩ := v.out_slot p (mem_append_right _ hp)
    simp only [hnil k] at ha
    exact not_mem_nil ha
  refine ⟨wt.of_registry hheld (fun h => nomatch h), ?_⟩
  refine mt.mono rfl (fun _ => rfl) fun c' a hl => ?_
  obtain ⟨hc', k, ha⟩ := hl
  have hne : c' ≠ c := by rintro rfl; rw [hnil k] at ha; exact not_mem_nil ha
  exact ⟨by simpa [hne] using hc', k, by simpa [setCache, hne] using ha⟩

/-! ## Runs -/

/-- One call, or writes of others: to memory that holds no slab, and to the records of frames that
are not marked, which they never mark. -/
inductive SlabCall : SlabWorld → SlabWorld → Prop
  | step {w w' : SlabWorld} (h : SlabStep w w') : SlabCall w w'
  | destroy {s s' : SlabState} {held : ℕ → List ℕ} {c : ℕ}
      (h : exec (slabCacheDestroy c) s = (.ok ⟨⟩, s')) : SlabCall ⟨s, held⟩ ⟨s', held⟩
  | others {s : SlabState} {held : ℕ → List ℕ} {slabs : ℕ → Slab} {pages : PageArray}
      (hslabs : ∀ c a, s.Listed c a → slabs a = s.slabs a)
      (hpages : ∀ f, s.Marked f → pages f = s.pages f)
      (hmarks : ∀ f, ¬ s.Marked f → (pages f).flags &&& PAGE_F_SLAB = 0) :
      SlabCall ⟨s, held⟩ ⟨{ s with slabs := slabs, pages := pages }, held⟩

/-- The invariant between calls, with the marks. -/
structure SlabCallInv (w : SlabWorld) : Prop where
  world : SlabWorldInv w
  marks : MarksExact w.st

theorem MarksExact.step {w w' : SlabWorld} (m : MarksExact w.st) (h : SlabStep w w') :
    MarksExact w'.st := by
  cases h with
  | create h => exact slabCacheCreate_marksExact m h
  | alloc hfresh h => exact slabAlloc_marksExact hfresh m h
  | free hp h =>
    unfold slabFree at h
    rw [exec_get_bind] at h
    split_ifs at h
    · cases h; exact m
    split at h
    · cases h
    split_ifs at h
    · cases h
    exact slabFreeCommon_marksExact m h
  | kfree hp h =>
    unfold kfree at h
    rw [exec_get_bind] at h
    split_ifs at h
    · cases h; exact m
    split at h
    · cases h
    split_ifs at h
    · cases h
    exact slabFreeCommon_marksExact m h
  | shrink hc h => exact slabCacheShrink_marksExact m h
  | shrinkAll h =>
    refine exec_forM_ok h m fun m hshrink => ?_
    rw [slabShrinkSlot, exec_get_bind] at hshrink
    split_ifs at hshrink
    · exact slabCacheShrink_marksExact m hshrink
    · cases hshrink; exact m

theorem SlabCallInv.init (slabs : ℕ → Slab) (spans : List PmmSpan)
    (caches : ℕ → SlabCache) (hpages : ∀ f, (pages f).flags &&& PAGE_F_SLAB = 0) :
    SlabCallInv (.init slabs pages spans caches) :=
  ⟨.init slabs pages spans caches, fun f hf => absurd (hpages f) hf⟩

/-- What others write to memory that holds no slab, and to the records of frames that are in no
slab, does not matter. -/
theorem SlabWorldInv.others (w : SlabWorldInv ⟨s, held⟩) {slabs : ℕ → Slab}
    (hslabs : ∀ c a, s.Listed c a → slabs a = s.slabs a)
    (hpages : ∀ f, s.Marked f → pages f = s.pages f) :
    SlabWorldInv ⟨{ s with slabs := slabs, pages := pages }, held⟩ := by
  refine ⟨fun c hc => ?_, w.rounds_le, w.inUse_lt, w.held_nil⟩
  have v := w.inv c hc
  refine v.frame rfl rfl rfl rfl (fun {k a} ha => hslabs c a ⟨hc, k, ha⟩)
    fun {k a} ha pfn f hpfn hf => hpages f ?_
  -- The frames of a slab are marked, so nobody else writes their records.
  obtain ⟨q, hq, -, hframes⟩ := (v.slab ha).frames
  obtain rfl : pfn = q := by omega
  exact (hframes f hf).2.1

theorem SlabCallInv.call {w w' : SlabWorld} (i : SlabCallInv w) (h : SlabCall w w') :
    SlabCallInv w' := by
  cases h with
  | step h => exact ⟨(i.world.step h).1, i.marks.step h⟩
  | destroy h =>
    obtain ⟨hw, hm⟩ := slabCacheDestroy_spec i.world i.marks h
    exact ⟨hw, hm⟩
  | @others s held slabs pages hslabs hpages hmarks =>
    refine ⟨i.world.others hslabs hpages, fun f hf => ?_⟩
    have hold : s.Marked f := by
      by_contra hnot
      exact hf (hmarks f hnot)
    obtain ⟨c, a, hl, hin⟩ := i.marks f hold
    exact ⟨c, a, hl, by simpa [hslabs c a hl] using hin⟩

/-- A slab with no object out is on the list of the empty slabs. -/
theorem CacheInv.onEmpty_of_nil {k : SlabListKind} (v : CacheInv s c [] none)
    (ha : a ∈ (s.caches c).lists k) : k = .onEmpty := by
  have o := v.slab ha
  obtain ⟨l, -, hnodup, hlen, hmem⟩ := o.free.chain
  have hall : l.Perm (range (s.slabs a).objCount) :=
    (perm_ext_iff_of_nodup hnodup nodup_range).2 fun i => by simp [hmem]
  have hfree := hlen.symm.trans (hall.length_eq.trans length_range)
  have hpos := v.layout.objs_pos
  rw [← o.objCount_eq] at hpos
  rw [← v.homed ha (by simp), slabWant, if_neg (by omega), if_pos hfree]

/-- **Nothing leaks from a cache.** After every run, `slabCacheDestroy` returns exactly if the cache
is in use, not permanent, and callers hold no object of it. -/
theorem slabCacheDestroy_exact {slabs : ℕ → Slab} {spans : List PmmSpan} {caches : ℕ → SlabCache}
    {w : SlabWorld} (hpages : ∀ f, (pages f).flags &&& PAGE_F_SLAB = 0)
    (hrun : Run SlabCall (.init slabs pages spans caches) w) (c : ℕ) :
    (∃ s', exec (slabCacheDestroy c) w.st = (.ok ⟨⟩, s')) ↔ w.st.inUse c = true ∧
      (w.st.caches c).flags &&& SLAB_CACHE_PERMANENT = 0 ∧ w.held c = [] := by
  have i : SlabCallInv w := hrun.invariant (.init slabs spans caches hpages) SlabCallInv.call
  constructor
  · rintro ⟨s', h⟩
    have hheld := (slabCacheDestroy_spec i.world i.marks h).1.held_nil c
    unfold slabCacheDestroy at h
    rw [exec_get_bind] at h
    split_ifs at h with hlive hflag
    iterate 2 · cases h
    refine ⟨inUse_of_live hlive, not_not.1 hflag, hheld ?_⟩
    obtain ⟨⟨⟩, t, -, h⟩ := exec_bind_eq_ok h
    rw [exec_modify_bind, exec_get_bind] at h
    split_ifs at h
    · cases h
    cases h
    exact update_self ..
  · rintro ⟨hc, hflag, hheld⟩
    -- `slabCacheShrink` empties the magazine, so that no object is out.
    obtain ⟨t, hshrink, wt, sh, hrounds, -⟩ := slabCacheShrink_spec i.world hc
    obtain ⟨⟨⟩, t, hflush, ht⟩ := exec_bind_eq_ok hshrink
    cases ht
    have v := wt.inv c (sh.inUse hc)
    rw [SlabWorld.outside, hrounds, hheld] at v
    have hnil (k : SlabListKind) (hk : k ≠ .onEmpty) :
        ((slabReclaimEmptyLocked t c 0).caches c).lists k = [] :=
      eq_nil_iff_forall_not_mem.2 fun a ha => hk (v.onEmpty_of_nil ha)
    unfold slabCacheDestroy
    rw [exec_get_bind, if_neg (by simp [i.world.live hc]), if_neg (not_not.2 hflag),
      exec_bind_of_ok hflush, exec_modify_bind, exec_get_bind, if_neg (by simp [hnil])]
    exact ⟨_, rfl⟩

/-- The cache of an object that a caller holds cannot be destroyed. -/
theorem slabCacheDestroy_exact_oneObject : ∃ w p, Run SlabCall noCaches w ∧ w.held 0 = [p] ∧
    ¬ ∃ s', exec (slabCacheDestroy 0) w.st = (.ok ⟨⟩, s') := by
  obtain ⟨w, p, hrun, hheld, -⟩ := run_oneObject
  have hrun' : Run SlabCall noCaches w := hrun.lift id fun _ _ => .step
  refine ⟨w, p, hrun', hheld, fun h => ?_⟩
  simpa [hheld] using ((slabCacheDestroy_exact (fun _ => Nat.zero_and _) hrun' 0).1 h).2.2

end Bongos.Mm
