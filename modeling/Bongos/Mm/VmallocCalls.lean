import Bongos.Mm.VmCalls

/-!
# Building and releasing an area

The loops of `vmalloc.c`. `vmallocLoop` maps fresh frames page by page (`Building`). The loops of
`vmallocUnwind` and of `vfree` both take pages back, so one lemma serves both (`releaseLoop_spec`).
After an unwind every frame that was tried is as free as before (`FramesSame`).
-/

namespace Bongos.Mm

open List

open Function (update update_eq_self update_idem update_of_ne update_self)

open Arch FallibleState RangeMap

variable {s s' s'' : VmState} {ans : VmAnswers} {live : List KvaRange} {held : ℕ → List ℕ}
  {area va n p f : ℕ} {fr : List ℕ}

/-! ## Frames -/

/-- A frame that `vmalloc` owns for the record `area`. -/
structure OwnedFrame (s : SlabState) (area f : ℕ) : Prop where
  valid : pmmPfnValid s.spans f = true
  state_eq : (s.pages f).state = .allocated
  order_eq : (s.pages f).order = 0
  vmalloc : (s.pages f).flags &&& PAGE_F_VMALLOC ≠ 0
  not_slab : (s.pages f).flags &&& PAGE_F_SLAB = 0
  word_eq : (s.pages f).privateWord = area

variable {t t' : SlabState}

theorem OwnedFrame.congr (o : OwnedFrame t area f) (hspans : t'.spans = t.spans)
    (hpage : t'.pages f = t.pages f) : OwnedFrame t' area f := by
  obtain ⟨h1, h2, h3, h4, h5, h6⟩ := o
  rw [← hspans] at h1
  rw [← hpage] at h2 h3 h4 h5 h6
  exact ⟨h1, h2, h3, h4, h5, h6⟩

/-- Writes the record of a frame. -/
def VmState.setPage (s : VmState) (f : ℕ) (page : Page) : VmState :=
  { s with slab := { s.slab with pages := update s.slab.pages f page } }

/-- The record of a frame that `vmalloc` has given back. -/
def freedPage (page : Page) : Page :=
  { unmarkedPage page with state := .pcp, order := 0, refcount := 0 }

/-- Freeing a frame that is allocated. -/
theorem exec_vmallocFreeFrame (hvalid : pmmPfnValid s.slab.spans f = true)
    (hstate : (s.slab.pages f).state = .allocated) (horder : (s.slab.pages f).order = 0) :
    exec (vmallocFreeFrame f) s = (.ok ⟨⟩, s.setPage f (freedPage (s.slab.pages f))) := by
  set s' := s.setPage f (unmarkedPage (s.slab.pages f)) with hs'
  have hpage : s'.slab.pages f = unmarkedPage (s.slab.pages f) := update_self ..
  have hval : pmmValidateState s'.slab.pages f 0 = .ok f := by
    have howner : firstOwned s'.slab.pages f 0 = none := by
      simp [firstOwned, hpage, unmarkedPage_owner]
    rw [pmmValidateState_eq, howner, hpage]
    simp [unmarkedPage, hstate, horder]
  have hspans : s'.slab.spans = s.slab.spans := rfl
  show exec (pmmFreeFrame f) s' = _
  rw [pmmFreeFrame, exec_get_bind, hspans, hvalid, hval]
  simp only [Bool.not_true, Bool.false_eq_true, if_false, modifyPage, exec_modify, hpage]
  simp [hs', VmState.setPage, freedPage]

/-- A frame that is not allocated has no mark. -/
theorem not_allocated (h : ¬ t.Allocated f) :
    (t.pages f).state ≠ .allocated ∧ (t.pages f).flags &&& PAGE_F_OWNER_MASK = 0 := by
  rw [SlabState.Allocated, not_or, not_not] at h
  exact h

theorem freedPage_not_allocated {page : Page} (h : t.pages f = freedPage page) :
    ¬ t.Allocated f := by
  rw [SlabState.Allocated, h, not_or, not_not]
  exact ⟨by simp [freedPage], unmarkedPage_owner page⟩

/-- The allocated frames are the same, and their records too. -/
structure FramesSame (t t' : SlabState) : Prop where
  spans_eq : t'.spans = t.spans
  pages : ∀ f, t'.pages f = t.pages f ∨ ¬ t.Allocated f ∧ ¬ t'.Allocated f

theorem FramesSame.marked (h : FramesSame t t') (hf : t.Marked f) : t'.pages f = t.pages f :=
  (h.pages f).resolve_right fun hfree => hfree.1 hf.allocated

/-! ## Taking pages back -/

/-- What a page of an area is mapped to. -/
def vmallocMapping (f : ℕ) : KvaMapping := ⟨f * 4096, true, .wb⟩

/-- The pages from `p` on are mapped to the frames. -/
def AreaMapped (paging : Paging) (p : ℕ) (fr : List ℕ) : Prop :=
  ∀ j f, fr[j]? = some f → kvaMap paging (p + j) = some (vmallocMapping f)

/-- The pages from `p` on, which were mapped to the frames, are unmapped, and the frames are
free. -/
structure Released (s s' : VmState) (p : ℕ) (fr : List ℕ) : Prop where
  same : s' = { s with paging := s'.paging, slab := { s.slab with pages := s'.slab.pages } }
  kernel : KernelInv s'.paging
  map_eq : kvaMap s'.paging = remove (kvaMap s.paging) p fr.length
  freed : ∀ f ∈ fr, s'.slab.pages f = freedPage (s.slab.pages f)
  others : ∀ f, f ∉ fr → s'.slab.pages f = s.slab.pages f

theorem Released.cons (h : Released s s' p [f]) (h' : Released s' s'' (p + 1) fr) (hf : f ∉ fr) :
    Released s s'' p (f :: fr) := by
  refine ⟨?_, h'.kernel, ?_, fun g hg => ?_, fun g hg => ?_⟩
  · rw [h'.same, h.same]
  · rw [h'.map_eq, h.map_eq, length_singleton, length_cons, remove_succ, remove_succ,
      remove_zero]
  · rcases mem_cons.1 hg with rfl | hg
    · rw [h'.others g hf]
      exact h.freed g mem_cons_self
    · have hne : g ≠ f := fun e => hf (e ▸ hg)
      rw [h'.freed g hg, h.others g (by simpa using hne)]
  · rw [mem_cons, not_or] at hg
    rw [h'.others g hg.2, h.others g (by simpa using hg.1)]

theorem OwnedFrame.physToPage (o : OwnedFrame s.slab area f) :
    pmmPhysToPage s (f * 4096) = some f := by
  have hframe : (f * 4096) >>> 12 = f := by
    rw [Nat.shiftRight_eq_div_pow]
    exact Nat.mul_div_cancel f (by decide)
  simp only [pmmPhysToPage, hframe, o.valid, if_true]

/-- One page is taken back. -/
theorem exec_vmallocReleasePage (i : KernelInv s.paging) (hn : KvaPage n)
    (hmap : kvaMap s.paging n ≠ none) (o : OwnedFrame s.slab area f) :
    ∃ s', exec (vmallocReleasePage (n * KVA_PAGE_SIZE) (f * 4096)) s = (.ok ⟨⟩, s') ∧
      Released s s' n [f] := by
  obtain ⟨paging, h, i', hmap'⟩ := exec_unmapKernel i (k := 1) (by decide)
    (fun j hj => by rwa [Nat.lt_one_iff.1 hj])
    (fun j hj => by rwa [Nat.lt_one_iff.1 hj])
  rw [Nat.one_mul] at h
  have hphys : pmmPhysToPage { s with paging := paging } (f * 4096) = some f := o.physToPage
  refine ⟨({ s with paging := paging } : VmState).setPage f (freedPage (s.slab.pages f)), ?_, rfl,
    i', hmap', fun g hg => ?_, fun g hg => ?_⟩
  · unfold vmallocReleasePage
    rw [exec_bind_of_ok h]
    rw [exec_get_bind, hphys]
    exact exec_vmallocFreeFrame o.valid o.state_eq o.order_eq
  · rw [mem_singleton.1 hg]
    exact update_self ..
  · exact update_of_ne (by simpa using hg) ..

/-- A loop that looks pages up and takes them back. -/
theorem releaseLoop_spec {loop : ℕ → ℕ → VmM Unit} (hzero : ∀ i, loop 0 i = pure ⟨⟩)
    (hsucc : ∀ n i s pa flags, exec (lookupKernel ((p + i) * KVA_PAGE_SIZE)) s =
        (.ok (.ok (pa, flags)), s) → exec (loop (n + 1) i) s =
      exec (vmallocReleasePage ((p + i) * KVA_PAGE_SIZE) pa >>= fun _ => loop n (i + 1)) s)
    (fr : List ℕ) : ∀ i s, KernelInv s.paging → fr.Nodup → (∀ j < fr.length, KvaPage (p + i + j)) →
      AreaMapped s.paging (p + i) fr → (∀ f ∈ fr, OwnedFrame s.slab area f) →
      ∃ s', exec (loop fr.length i) s = (.ok ⟨⟩, s') ∧ Released s s' (p + i) fr := by
  induction fr with
  | nil =>
    intro i s inv _ _ _ _
    exact ⟨s, by rw [length_nil, hzero]; rfl, rfl, inv, by simp, by simp, fun _ _ => rfl⟩
  | cons f fr ih =>
    intro i s inv hnodup hkva hmapped howned
    obtain ⟨hf, hnodup⟩ := nodup_cons.1 hnodup
    have hpage : KvaPage (p + i) := hkva 0 (by simp)
    have hmap : kvaMap s.paging (p + i) = some (vmallocMapping f) := hmapped 0 f rfl
    have hlook := exec_lookupKernel inv hpage
    rw [hmap] at hlook
    obtain ⟨s1, h1, r1⟩ :=
      exec_vmallocReleasePage inv hpage (by rw [hmap]; exact Option.some_ne_none _)
        (howned f mem_cons_self)
    have hspans : s1.slab.spans = s.slab.spans := by rw [r1.same]
    -- The other pages are as they were.
    obtain ⟨s₂, h2, r2⟩ := ih (i + 1) s1 r1.kernel hnodup
      (fun j hj => by
        have := hkva (j + 1) (by simpa using hj)
        rwa [show p + i + (j + 1) = p + (i + 1) + j by omega] at this)
      (fun j g hj => by
        have := hmapped (j + 1) g (by simpa using hj)
        rw [r1.map_eq, remove, if_neg (by simp only [length_singleton]; omega)]
        rwa [show p + i + (j + 1) = p + (i + 1) + j by omega] at this)
      (fun g hg => (howned g (mem_cons_of_mem f hg)).congr hspans
        (r1.others g fun e => hf (mem_singleton.1 e ▸ hg)))
    refine ⟨s₂, ?_, r1.cons (by rwa [Nat.add_assoc]) hf⟩
    rw [length_cons, hsucc _ _ _ _ _ hlook]
    exact (exec_bind_of_ok h1).trans h2

/-- The reservation and the record of an area go back. -/
theorem exec_vmallocReleaseArea {r : KvaRange} (inv : KernelInv s.paging)
    (k : KvaReserved s.kva (r :: live)) (w : SlabWorldInv ⟨s.slab, held⟩)
    (hp : area ∈ held s.vmallocAreaCache) :
    ∃ kva slab, exec (vmallocReleaseArea area r.va r.size) s = (.ok ⟨⟩, { s with
        kva := kva, slab := slab
        areas := update s.areas area { s.areas area with magic := 0 } }) ∧
      KvaReserved kva live ∧
      SlabWorldInv ⟨slab, update held s.vmallocAreaCache ((held s.vmallocAreaCache).erase area)⟩ ∧
      slab.inUse s.vmallocAreaCache = true ∧ FramesShrink s.slab slab ∧
      (s.slab.HasRoom s.vmallocAreaCache → slab.pages = s.slab.pages) := by
  obtain ⟨kva, h1, k'⟩ := exec_vmmKvaFree inv.active k mem_cons_self
  rw [erase_cons_head] at k'
  set s₂ : VmState := { s with
    kva := kva, areas := update s.areas area { s.areas area with magic := 0 } } with hs2
  have w2 : SlabWorldInv ⟨s₂.slab, held⟩ := w
  obtain ⟨slab, h2, w', hc, hshrink, hroom⟩ := exec_areaFree w2 hp
  refine ⟨kva, slab, ?_, k', w', hc, hshrink, hroom⟩
  unfold vmallocReleaseArea modifyArea
  rw [exec_bind_of_ok h1, exec_modify_bind]
  exact h2

theorem KvaReserved.head_kvaPage {kva : KvaState} {N j : ℕ}
    (k : KvaReserved kva (⟨p * KVA_PAGE_SIZE, N * KVA_PAGE_SIZE⟩ :: live)) (hj : j ≤ N) :
    KvaPage (p + j) := by
  have h := k.kvaPage (n := p + j) mem_cons_self
  simp only [KvaRange.page, KvaRange.pages,
    Nat.mul_div_cancel _ (by decide : 0 < KVA_PAGE_SIZE)] at h
  exact h (by omega) (by omega)

/-! ## Mapping fresh frames -/

/-- The first pages of a reservation are mapped to the frames `fr`. The state `s₀` is the one before
the first of them. -/
structure Building (s₀ s : VmState) (area p : ℕ) (fr : List ℕ) : Prop where
  same : s = { s₀ with
    paging := s.paging, slab := { s₀.slab with pages := s.slab.pages }
    areas := update s₀.areas area { s₀.areas area with pages := fr.length } }
  kernel : KernelInv s.paging
  mapped : AreaMapped s.paging p fr
  unmapped : ∀ j < fr.length, kvaMap s₀.paging (p + j) = none
  outside : ∀ n, ¬ (p ≤ n ∧ n < p + fr.length) → kvaMap s.paging n = kvaMap s₀.paging n
  nodup : fr.Nodup
  fresh : ∀ f ∈ fr, ¬ s₀.slab.Allocated f
  owned : ∀ f ∈ fr, OwnedFrame s.slab area f
  others : ∀ f, f ∉ fr → s.slab.pages f = s₀.slab.pages f ∨
    ¬ s₀.slab.Allocated f ∧ ¬ s.slab.Allocated f

/-- The area was taken down again. -/
structure Undone (s₀ s : VmState) (area : ℕ) (live : List KvaRange) (held : ℕ → List ℕ) : Prop where
  same : ∃ a, s = { s₀ with
    paging := s.paging, kva := s.kva, slab := s.slab, areas := update s₀.areas area a }
  kernel : KernelInv s.paging
  map_eq : kvaMap s.paging = kvaMap s₀.paging
  kva : KvaReserved s.kva live
  slab : SlabWorldInv ⟨s.slab, update held s₀.vmallocAreaCache
    ((held s₀.vmallocAreaCache).erase area)⟩
  inUse : s.slab.inUse s₀.vmallocAreaCache = true
  frames : FramesSame s₀.slab s.slab

section Build

variable {s₀ : VmState} {N : ℕ}

/-- `vmallocUnwind` takes the pages, the reservation, and the record back. -/
theorem Building.unwind (b : Building s₀ s area p fr)
    (k : KvaReserved s₀.kva (⟨p * KVA_PAGE_SIZE, N * KVA_PAGE_SIZE⟩ :: live))
    (w : SlabWorldInv ⟨s₀.slab, held⟩) (hp : area ∈ held s₀.vmallocAreaCache)
    (hroom : s₀.slab.HasRoom s₀.vmallocAreaCache) (hlen : fr.length ≤ N) :
    ∃ s', exec (vmallocUnwind area (p * KVA_PAGE_SIZE) fr.length (N * KVA_PAGE_SIZE)) s =
      (.ok ⟨⟩, s') ∧ Undone s₀ s' area live held := by
  have hkva : ∀ j < fr.length, KvaPage (p + j) := fun j hj => k.head_kvaPage (hj.le.trans hlen)
  obtain ⟨s1, h1, r⟩ : ∃ s', exec (vmallocUnwindLoop (p * KVA_PAGE_SIZE) fr.length 0) s =
      (.ok ⟨⟩, s') ∧ Released s s' p fr := by
    refine releaseLoop_spec (fun _ => rfl) (fun n i s pa flags h => ?_) fr 0 s b.kernel b.nodup hkva
      b.mapped b.owned
    rw [Nat.add_mul] at h ⊢
    rw [vmallocUnwindLoop, exec_bind_of_ok h]
  have hsame : s1 = { s₀ with
      paging := s1.paging, slab := { s₀.slab with pages := s1.slab.pages }
      areas := update s₀.areas area { s₀.areas area with pages := fr.length } } := by
    rw [r.same, b.same]
  have hframes : FramesSame s₀.slab s1.slab := by
    refine ⟨by rw [hsame], fun f => ?_⟩
    by_cases hf : f ∈ fr
    · exact .inr ⟨b.fresh f hf, freedPage_not_allocated (r.freed f hf)⟩
    · have hpage := r.others f hf
      rw [SlabState.Allocated, SlabState.Allocated, hpage]
      exact b.others f hf
  have w1 : SlabWorldInv ⟨s1.slab, held⟩ := by
    rw [hsame]
    exact w.setPages fun f hf => hframes.marked hf
  have hp1 : area ∈ held s1.vmallocAreaCache := by rw [hsame]; exact hp
  obtain ⟨kva, slab, h2, k', w', hc, hshrink, hpages⟩ := exec_vmallocReleaseArea r.kernel
    (by rw [hsame]; exact k) w1 hp1
  have hpages := hpages (by rw [hsame]; exact hroom)
  have hcache : s1.vmallocAreaCache = s₀.vmallocAreaCache := by rw [hsame]
  rw [hcache] at w' hc
  refine ⟨_, (exec_bind_of_ok h1).trans h2, ⟨{ s1.areas area with magic := 0 }, ?_⟩,
    r.kernel, ?_, k', w', hc, ?_⟩
  · rw [hsame]
    simp
  · funext n
    rw [r.map_eq, remove]
    split_ifs with hn
    · have := b.unmapped (n - p) (by omega)
      rwa [show p + (n - p) = n by omega, eq_comm] at this
    · exact b.outside n hn
  · refine ⟨hshrink.spans_eq.trans hframes.spans_eq, fun f => ?_⟩
    rw [SlabState.Allocated, SlabState.Allocated, hpages]
    exact hframes.pages f

/-- The record of a frame that `vmalloc` takes. -/
def ownedPage (page : Page) (area : ℕ) : Page :=
  { allocatedHead page 0 with
    flags := (allocatedHead page 0).flags ||| PAGE_F_VMALLOC, privateWord := area }

theorem OwnedFrame.setPage (hvalid : pmmPfnValid s.slab.spans f = true)
    (hfree : ¬ s.slab.Allocated f) :
    OwnedFrame (s.setPage f (ownedPage (s.slab.pages f) area)).slab area f := by
  have hpage : (s.setPage f (ownedPage (s.slab.pages f) area)).slab.pages f =
      ownedPage (s.slab.pages f) area := update_self ..
  refine ⟨hvalid, ?_, ?_, ?_, ?_, ?_⟩ <;> rw [hpage]
  · rfl
  · rfl
  · simp only [ownedPage, Nat.and_or_distrib_right]
    exact fun h => absurd (Nat.or_eq_zero_iff.1 h).2 (by decide)
  · have hslab : (s.slab.pages f).flags &&& PAGE_F_SLAB = 0 := by
      by_contra h
      exact owner_mask_slab h (not_allocated hfree).2
    simp only [ownedPage, Nat.and_or_distrib_right]
    exact Nat.or_eq_zero_iff.2 ⟨hslab, by decide⟩
  · rfl

theorem OwnedFrame.allocated (o : OwnedFrame t area f) : t.Allocated f := .inl o.state_eq

theorem requested_frame : requested (f <<< 12) VMM_WRITE = vmallocMapping f := by
  have hwrite : VMM_WRITE ≠ 0#32 := by decide
  have huc : VMM_WRITE &&& VMM_CACHE_MASK ≠ VMM_CACHE_UC := by decide
  have hwc : VMM_WRITE &&& VMM_CACHE_MASK ≠ VMM_CACHE_WC := by decide
  simp [requested, vmallocMapping, hwrite, huc, hwc, Nat.shiftLeft_eq]

section

variable (b : Building s₀ s area p fr)

include b

/-- A frame that is free now was free at the start. -/
theorem Building.free_start (hfree : ¬ s.slab.Allocated f) : f ∉ fr ∧ ¬ s₀.slab.Allocated f := by
  have hf : f ∉ fr := fun h => hfree (b.owned f h).allocated
  refine ⟨hf, ?_⟩
  rcases b.others f hf with he | hfree'
  · rwa [SlabState.Allocated, ← he]
  · exact hfree'.1

/-- The other frames do not notice a write to the record of one. -/
theorem Building.others_setPage (page : Page) {g : ℕ} (hne : g ≠ f)
    (hg : g ∉ fr) : (s.setPage f page).slab.pages g = s₀.slab.pages g ∨
      ¬ s₀.slab.Allocated g ∧ ¬ (s.setPage f page).slab.Allocated g := by
  have hpage : (s.setPage f page).slab.pages g = s.slab.pages g := update_of_ne hne ..
  rw [SlabState.Allocated, SlabState.Allocated, hpage]
  exact b.others g hg

/-- One more page is mapped. -/
theorem Building.snoc (hvalid : pmmPfnValid s.slab.spans f = true)
    (hfree : ¬ s.slab.Allocated f) {paging : Paging} (inv : KernelInv paging)
    (hnone : kvaMap s.paging (p + fr.length) = none)
    (hmap : kvaMap paging = extend (kvaMap s.paging) (p + fr.length) 1 fun _ => vmallocMapping f) :
    Building s₀ { s.setPage f (ownedPage (s.slab.pages f) area) with
      paging := paging
      areas := update s.areas area { s.areas area with pages := fr.length + 1 } }
      area p (fr ++ [f]) := by
  obtain ⟨hf, hstart⟩ := b.free_start hfree
  have hlen : (fr ++ [f]).length = fr.length + 1 := by simp
  refine ⟨?_, inv, fun j g hj => ?_, fun j hj => ?_, fun n hn => ?_, ?_, fun g hg => ?_,
    fun g hg => ?_, fun g hg => ?_⟩
  · rw [b.same, hlen]
    simp [VmState.setPage]
  · rw [hmap, extend]
    rcases Nat.lt_trichotomy j fr.length with hlt | rfl | hgt
    · rw [if_neg (by omega)]
      rw [getElem?_append_left hlt] at hj
      exact b.mapped j g hj
    · rw [if_pos (by omega)]
      simp only [getElem?_concat_length, Option.some.injEq] at hj
      rw [hj]
    · rw [getElem?_eq_none (by omega)] at hj
      cases hj
  · rcases Nat.lt_succ_iff_lt_or_eq.1 (hlen ▸ hj) with hlt | rfl
    · exact b.unmapped j hlt
    · rw [← b.outside _ (by omega)]
      exact hnone
  · rw [hmap, extend, if_neg (by omega)]
    exact b.outside n (by omega)
  · exact nodup_append.2 ⟨b.nodup, nodup_singleton f, fun a ha c hc e =>
      hf (mem_singleton.1 hc ▸ e ▸ ha)⟩
  · rcases mem_append.1 hg with hg | hg
    · exact b.fresh g hg
    · rwa [mem_singleton.1 hg]
  · rcases mem_append.1 hg with hg | hg
    · have hne : g ≠ f := fun e => hf (e ▸ hg)
      exact (b.owned g hg).congr rfl (update_of_ne hne ..)
    · rw [mem_singleton.1 hg]
      exact (OwnedFrame.setPage hvalid hfree).congr rfl rfl
  · rw [mem_append, mem_singleton, not_or] at hg
    exact b.others_setPage _ hg.2 hg.1

/-- A frame was taken, could not be mapped, and is free again. -/
theorem Building.retract (hfree : ¬ s.slab.Allocated f) (page : Page)
    {paging : Paging} (inv : KernelInv paging) (hmap : kvaMap paging = kvaMap s.paging) :
    Building s₀ { s.setPage f (freedPage page) with paging := paging } area p fr := by
  obtain ⟨hf, hstart⟩ := b.free_start hfree
  refine ⟨?_, inv, fun j g hj => ?_, b.unmapped, fun n hn => ?_, b.nodup, b.fresh, fun g hg => ?_,
    fun g hg => ?_⟩
  · rw [b.same]
    rfl
  · rw [hmap]
    exact b.mapped j g hj
  · rw [hmap]
    exact b.outside n hn
  · have hne : g ≠ f := fun e => hf (e ▸ hg)
    exact (b.owned g hg).congr rfl (update_of_ne hne ..)
  · by_cases hgf : g = f
    · subst hgf
      have hpage : (s.setPage g (freedPage page)).slab.pages g = freedPage page :=
        update_self ..
      exact .inr ⟨hstart, freedPage_not_allocated hpage⟩
    · exact b.others_setPage _ hgf hg

end

theorem exec_pmmAllocFrame_some (h : ans.frames s = some f) : exec (pmmAllocFrame ans) s =
      (.ok (some f), s.setPage f (allocatedHead (s.slab.pages f) 0)) := by
  unfold pmmAllocFrame
  rw [exec_get_bind, h]
  rfl

theorem exec_pmmAllocFrame_none (h : ans.frames s = none) :
    exec (pmmAllocFrame ans) s = (.ok none, s) := by
  unfold pmmAllocFrame
  rw [exec_get_bind, h]
  rfl

/-- The frame carries the mark of `vmalloc` before its page is mapped. -/
theorem exec_markFrame (page : Page) : exec (modifyPage f fun page =>
      { page with flags := page.flags ||| PAGE_F_VMALLOC, privateWord := area })
        (s.setPage f (allocatedHead page 0)) = (.ok ⟨⟩, s.setPage f (ownedPage page area)) := by
  unfold modifyPage
  simp [VmState.setPage, ownedPage]

/-- The loop of `vmalloc` maps the pages that are left, or takes everything back. -/
theorem exec_vmallocLoop (ha : ans.Fresh)
    (k : KvaReserved s₀.kva (⟨p * KVA_PAGE_SIZE, N * KVA_PAGE_SIZE⟩ :: live))
    (w : SlabWorldInv ⟨s₀.slab, held⟩) (hp : area ∈ held s₀.vmallocAreaCache)
    (hroom : s₀.slab.HasRoom s₀.vmallocAreaCache) :
    ∀ n fr s, Building s₀ s area p fr → fr.length + n = N →
      (∃ s' fr', exec (vmallocLoop ans area (p * KVA_PAGE_SIZE) (N * KVA_PAGE_SIZE) n fr.length) s =
          (.ok true, s') ∧ Building s₀ s' area p fr' ∧ fr'.length = N) ∨
        ∃ s', exec (vmallocLoop ans area (p * KVA_PAGE_SIZE) (N * KVA_PAGE_SIZE) n fr.length) s =
          (.ok false, s') ∧ Undone s₀ s' area live held := by
  intro n
  induction n with
  | zero =>
    intro fr s b hlen
    exact .inl ⟨s, fr, rfl, b, hlen⟩
  | succ n ih =>
    intro fr s b hlen
    rw [vmallocLoop]
    cases hframe : ans.frames s with
    | none =>
      -- No frame is left.
      obtain ⟨s', h, hundone⟩ := b.unwind k w hp hroom (by omega)
      refine .inr ⟨s', ?_, hundone⟩
      rw [exec_bind_of_ok (exec_pmmAllocFrame_none hframe)]
      rw [exec_bind_of_ok h]
      rfl
    | some f =>
      obtain ⟨hvalid, hbound, hfree⟩ := ha.frames s f hframe
      set s1 := s.setPage f (ownedPage (s.slab.pages f) area) with hs1
      have hva : (p + fr.length) * KVA_PAGE_SIZE < 2^64 := by
        obtain ⟨-, h, -⟩ := k.inside mem_cons_self
        have hend : VM_KVA_END < 2^64 := by decide
        have hpages : (p + fr.length) * KVA_PAGE_SIZE ≤ (p + N) * KVA_PAGE_SIZE :=
          Nat.mul_le_mul_right _ (by omega)
        rw [Nat.add_mul p N] at hpages
        dsimp only at h
        omega
      have hpa : f <<< 12 < 2^64 := by
        have : BOOTINFO_HHDM_SIZE < 2^64 := by decide
        omega
      obtain ⟨st, paging, h, inv', hcases⟩ := exec_mapKernel (s := s1) VMM_WRITE b.kernel
        (ha.tables s1) hva hpa (by decide : KVA_PAGE_SIZE < 2^64)
      rw [Nat.mul_div_cancel _ (by decide : 0 < KVA_PAGE_SIZE), Nat.div_self (by decide)] at hcases
      rw [exec_bind_of_ok (exec_pmmAllocFrame_some hframe)]
      rw [exec_bind_of_ok (exec_markFrame _), ← Nat.add_mul, exec_bind_of_ok h]
      rcases hcases with ⟨hst, hmap⟩ | ⟨rfl, hnone, hmap⟩
      · -- The page could not be mapped, so its frame goes back before the others.
        set s₂ : VmState := { s1 with paging := paging } with hs2
        have o : OwnedFrame s₂.slab area f := OwnedFrame.setPage hvalid hfree
        obtain ⟨s', h', hundone⟩ := (b.retract hfree (s₂.slab.pages f) inv' hmap).unwind k w hp
          hroom (by omega)
        have hfreed : exec (vmallocFreeFrame f) s₂ = (.ok ⟨⟩,
            { s.setPage f (freedPage (s₂.slab.pages f)) with paging := paging }) := by
          rw [exec_vmallocFreeFrame o.valid o.state_eq o.order_eq, hs2, hs1]
          simp [VmState.setPage]
        refine .inr ⟨s', ?_, hundone⟩
        cases st <;> first
          | exact absurd rfl hst
          | dsimp only
            rw [exec_bind_of_ok hfreed, exec_bind_of_ok h']
            rfl
      · have hmap' : kvaMap paging =
            extend (kvaMap s.paging) (p + fr.length) 1 fun _ => vmallocMapping f := by
          rw [hmap]
          funext v
          simp only [extend]
          split_ifs with hv
          · rw [← requested_frame, show v - (p + fr.length) = 0 by omega, Nat.zero_mul,
              Nat.add_zero]
          · rfl
        have b' := b.snoc hvalid hfree inv' (hnone 0 Nat.one_pos) hmap'
        have hih := ih (fr ++ [f]) _ b' (by rw [length_append, length_singleton]; omega)
        rw [length_append, length_singleton] at hih
        exact hih

end Build

/-! ## The calls -/

/-- The frames outside `fr` are as allocated as before, apart from frames that have joined a
slab. -/
structure FramesKept (t t' : SlabState) (fr : List ℕ) : Prop where
  spans_eq : t'.spans = t.spans
  pages : ∀ f, f ∉ fr → t'.pages f = t.pages f ∨ ¬ t.Allocated f ∧
    (¬ t'.Allocated f ∨ ∃ slab, t'.pages f = markedPage (t.pages f) slab)

theorem FramesGrow.kept {t1 : SlabState} (g : FramesGrow t t1) (hspans : t'.spans = t1.spans)
    (h : ∀ f, f ∉ fr → t'.pages f = t1.pages f ∨ ¬ t1.Allocated f ∧ ¬ t'.Allocated f) :
    FramesKept t t' fr := by
  refine ⟨hspans.trans g.spans_eq, fun f hf => ?_⟩
  rcases h f hf with h | ⟨h1, h'⟩
  · rcases g.pages f with h1 | ⟨hfree, slab, h1⟩
    · exact .inl (h.trans h1)
    · exact .inr ⟨hfree, .inr ⟨slab, h.trans h1⟩⟩
  · exact .inr ⟨g.not_allocated h1, .inl h'⟩

/-- A call of `vmalloc` that returns NULL. -/
structure VmallocNull (s s' : VmState) (live : List KvaRange) (held : ℕ → List ℕ) : Prop where
  cache_eq : s'.vmallocAreaCache = s.vmallocAreaCache
  areas : ∀ a ∈ held s.vmallocAreaCache, s'.areas a = s.areas a
  kernel : KernelInv s'.paging
  map_eq : kvaMap s'.paging = kvaMap s.paging
  kva : KvaReserved s'.kva live
  slab : SlabWorldInv ⟨s'.slab, held⟩
  inUse : s'.slab.inUse s.vmallocAreaCache = true
  frames : FramesKept s.slab s'.slab []

/-- A call of `vmalloc` that returns the pages from `p` on, mapped to the frames `fr`. -/
structure VmallocDone (s s' : VmState) (live : List KvaRange) (held : ℕ → List ℕ) (area p : ℕ)
    (fr : List ℕ) : Prop where
  cache_eq : s'.vmallocAreaCache = s.vmallocAreaCache
  record : area ∉ held s.vmallocAreaCache
  areas : s'.areas =
    update s.areas area ⟨VMALLOC_AREA_MAGIC, p * KVA_PAGE_SIZE, fr.length⟩
  kernel : KernelInv s'.paging
  mapped : AreaMapped s'.paging p fr
  unmapped : ∀ j < fr.length, kvaMap s.paging (p + j) = none
  outside : ∀ n, ¬ (p ≤ n ∧ n < p + fr.length) → kvaMap s'.paging n = kvaMap s.paging n
  kva : KvaReserved s'.kva (⟨p * KVA_PAGE_SIZE, fr.length * KVA_PAGE_SIZE⟩ :: live)
  slab : SlabWorldInv ⟨s'.slab, update held s.vmallocAreaCache
    (area :: held s.vmallocAreaCache)⟩
  inUse : s'.slab.inUse s.vmallocAreaCache = true
  nodup : fr.Nodup
  fresh : ∀ f ∈ fr, ¬ s.slab.Allocated f
  owned : ∀ f ∈ fr, OwnedFrame s'.slab area f
  frames : FramesKept s.slab s'.slab fr

/-- The record that `vmalloc` has got is a new one. -/
theorem SlabWorldInv.held_nodup {c : ℕ} (w : SlabWorldInv ⟨t, held⟩)
    (hc : t.inUse c = true) : (held c).Nodup :=
  (nodup_append.1 (w.inv c hc).out_nodup).2.1

/-- A record was taken from the cache. -/
structure RecordTaken (s : VmState) (slab : SlabState) (held : ℕ → List ℕ) (area : ℕ) : Prop where
  world : SlabWorldInv ⟨slab, update held s.vmallocAreaCache
    (area :: held s.vmallocAreaCache)⟩
  inUse : slab.inUse s.vmallocAreaCache = true
  room : (slab.caches s.vmallocAreaCache).bspMag.rounds.length <
    (slab.caches s.vmallocAreaCache).bspMag.capacity
  grow : FramesGrow s.slab slab

section Record

variable {slab : SlabState} {kva : KvaState} {s₂ : VmState}

/-- When the record has gone back, callers hold what they held. -/
theorem held_erase_cons (c area : ℕ) : update (update held c (area :: held c)) c
      ((update held c (area :: held c) c).erase area) = held := by
  rw [update_self, erase_cons_head, update_idem, update_eq_self]

/-- The state in which `vmalloc` starts to map frames. -/
def recordState (s : VmState) (slab : SlabState) (kva : KvaState) (area p : ℕ) : VmState :=
  { s with
    slab := slab, kva := kva
    areas := update s.areas area ⟨VMALLOC_AREA_MAGIC, p * KVA_PAGE_SIZE, 0⟩ }

theorem recordState_building (inv : KernelInv s.paging) :
    Building (recordState s slab kva area p) (recordState s slab kva area p) area p [] := by
  refine ⟨?_, inv, by simp [AreaMapped], by simp, fun _ _ => rfl, nodup_nil, by simp, by simp,
    fun _ _ => .inl rfl⟩
  simp [recordState]

theorem RecordTaken.mem (_ : RecordTaken s slab held area) :
    area ∈ update held s.vmallocAreaCache (area :: held s.vmallocAreaCache)
      s.vmallocAreaCache := by
  rw [update_self]
  exact mem_cons_self

variable (r : RecordTaken s slab held area)

include r

theorem RecordTaken.not_mem : area ∉ held s.vmallocAreaCache := by
  have := r.world.held_nodup r.inUse
  rw [update_self] at this
  exact (nodup_cons.1 this).1

/-- The records of other areas are not written. -/
theorem RecordTaken.areas_eq (a : VmallocArea) :
    ∀ b ∈ held s.vmallocAreaCache, update s.areas area a b = s.areas b := by
  intro b hb
  have hne : b ≠ area := fun e => r.not_mem (e ▸ hb)
  exact update_of_ne hne ..

/-- All pages are mapped. -/
theorem RecordTaken.done
    (k : KvaReserved kva (⟨p * KVA_PAGE_SIZE, fr.length * KVA_PAGE_SIZE⟩ :: live))
    (b : Building (recordState s slab kva area p) s' area p fr) {areaCount pageCount : ℕ} :
    VmallocDone s
      { s' with vmallocAreaCountValue := areaCount, vmallocPageCountValue := pageCount } live held
      area p fr := by
  have hfree : ∀ f ∈ fr, ¬ slab.Allocated f := b.fresh
  refine ⟨by dsimp only; rw [b.same]; rfl, r.not_mem, ?_, b.kernel, b.mapped, b.unmapped,
    b.outside, ?_, ?_, ?_, b.nodup, fun f hf => r.grow.not_allocated (hfree f hf), b.owned, ?_⟩
  · rw [b.same]
    simp [recordState]
  · rw [b.same]
    exact k
  · have hsame : s'.slab = { slab with pages := s'.slab.pages } := by rw [b.same]; rfl
    rw [hsame]
    refine r.world.setPages fun f hf => ?_
    have hmem : f ∉ fr := fun h => hfree f h hf.allocated
    exact (b.others f hmem).resolve_right fun h => h.1 hf.allocated
  · rw [b.same]
    exact r.inUse
  · refine r.grow.kept ?_ b.others
    rw [b.same]
    rfl

/-- Everything was taken back. -/
theorem RecordTaken.null
    (u : Undone (recordState s slab kva area p) s' area live
      (update held s.vmallocAreaCache (area :: held s.vmallocAreaCache))) :
    VmallocNull s s' live held := by
  obtain ⟨a, hsame⟩ := u.same
  refine ⟨?_, fun b hb => ?_, u.kernel, u.map_eq, u.kva, ?_, u.inUse,
    r.grow.kept u.frames.spans_eq fun f _ => u.frames.pages f⟩
  · rw [hsame]
    rfl
  · rw [hsame, recordState]
    simpa using r.areas_eq a b hb
  · have hworld := u.slab
    have hcache : (recordState s slab kva area p).vmallocAreaCache = s.vmallocAreaCache := rfl
    rwa [hcache, held_erase_cons] at hworld

/-- `vmalloc` on valid arguments, once it has a record. A failure leaves the frames as they were
when the record was taken. -/
theorem exec_vmalloc_of_record (ha : ans.Fresh) (inv : KernelInv s.paging)
    (k : KvaReserved s.kva live)
    (h1 : exec (areaAlloc ans) s = (.ok (some area), { s with slab := slab }))
    {size : ℕ} {flags : BitVec 32}
    (hflags : flags &&& ~~~VMALLOC_FLAGS_VALID = 0) (hsize : size ≠ 0)
    (hmax : ¬ size > VMALLOC_MAX_SIZE) :
    (∃ s', exec (vmalloc ans size flags) s = (.ok 0, s') ∧ VmallocNull s s' live held ∧
      FramesSame slab s'.slab) ∨
    ∃ s' p fr, exec (vmalloc ans size flags) s = (.ok (p * KVA_PAGE_SIZE), s') ∧
      VmallocDone s s' live held area p fr ∧ fr.length = (size + 4095) / 4096 := by
  unfold vmalloc
  rw [if_neg (not_not.2 hflags), if_neg hsize, if_neg hmax]
  rw [exec_bind_of_ok h1]
  unfold modifyArea
  rw [exec_modify_bind]
  set s1 : VmState := { s with
    slab := slab
    areas := update s.areas area
      { s.areas area with magic := VMALLOC_AREA_MAGIC, pages := 0 } } with hs1
  set N := (size + 4095) / 4096 with hN
  have hlt : N * 4096 < 2^64 := by
    have : VMALLOC_MAX_SIZE = 2^30 := by decide
    omega
  rcases exec_vmmKvaAlloc (s := s1) inv.active k hlt with ⟨st, h2⟩ | ⟨va, kva, h2, k2⟩
  · -- There is no range, and the record goes back.
    obtain ⟨slab', h3, w3, hc3, hshrink, hpages⟩ := exec_areaFree (s := s1) r.world r.mem
    have hpages : slab'.pages = slab.pages := hpages r.room
    refine .inl ⟨{ s1 with slab := slab' }, ?_, ⟨rfl, r.areas_eq _, inv, rfl, k, ?_, hc3,
      r.grow.kept hshrink.spans_eq fun f _ => .inl (congrFun hpages f)⟩, hshrink.spans_eq,
      fun f => .inl (congrFun hpages f)⟩
    · rw [exec_bind_of_ok h2]
      rw [exec_bind_of_ok h3]
      rfl
    · have hcache : s1.vmallocAreaCache = s.vmallocAreaCache := rfl
      rwa [hcache, held_erase_cons] at w3
  obtain ⟨p, rfl⟩ : ∃ p, va = p * KVA_PAGE_SIZE := ⟨_, (k2.inside mem_cons_self).2.2.1⟩
  rw [exec_bind_of_ok h2]
  rw [exec_modify_bind]
  have hstate : { s1 with
      kva := kva
      areas := update s1.areas area { s1.areas area with va := p * KVA_PAGE_SIZE } } =
      recordState s slab kva area p := by simp [hs1, recordState]
  rw [hstate]
  have hmem : area ∈ update held s.vmallocAreaCache (area :: held s.vmallocAreaCache)
    (recordState s slab kva area p).vmallocAreaCache := r.mem
  rcases exec_vmallocLoop ha k2 r.world hmem r.room N [] _ (recordState_building inv) (by simp) with
    ⟨s', fr, h3, b, hlen⟩ | ⟨s', h3, u⟩
  · rw [← hlen] at k2
    exact .inr ⟨_, p, fr, (exec_bind_of_ok h3).trans rfl, r.done k2 b, hlen⟩
  · exact .inl ⟨s', (exec_bind_of_ok h3).trans rfl, r.null u, u.frames⟩

end Record

/-- `vmalloc` on valid arguments. -/
theorem exec_vmalloc (ha : ans.Fresh) (inv : KernelInv s.paging) (k : KvaReserved s.kva live)
    (w : SlabWorldInv ⟨s.slab, held⟩) (hc : s.slab.inUse s.vmallocAreaCache = true) {size : ℕ}
    {flags : BitVec 32} (hflags : flags &&& ~~~VMALLOC_FLAGS_VALID = 0) (hsize : size ≠ 0) :
    (∃ s', exec (vmalloc ans size flags) s = (.ok 0, s') ∧ VmallocNull s s' live held) ∨
      ∃ s' area p fr, exec (vmalloc ans size flags) s = (.ok (p * KVA_PAGE_SIZE), s') ∧
        VmallocDone s s' live held area p fr ∧ fr.length = (size + 4095) / 4096 := by
  by_cases hmax : size > VMALLOC_MAX_SIZE
  · unfold vmalloc
    rw [if_neg (not_not.2 hflags), if_neg hsize, if_pos hmax]
    exact .inl ⟨s, rfl, rfl, fun _ _ => rfl, inv, rfl, k, w, hc, rfl, fun _ _ => .inl rfl⟩
  obtain ⟨r, slab, h1, w1, hc1, hgrow, hroom⟩ := exec_areaAlloc ha w hc
  rcases r with _ | area
  · -- There is no record.
    refine .inl ⟨{ s with slab := slab }, ?_, rfl, fun _ _ => rfl, inv, rfl, k, ?_, hc1,
      hgrow.kept rfl fun _ _ => .inl rfl⟩
    · unfold vmalloc
      rw [if_neg (not_not.2 hflags), if_neg hsize, if_neg hmax]
      exact (exec_bind_of_ok h1).trans rfl
    · rwa [Option.toList_none, nil_append, update_eq_self] at w1
  · rcases exec_vmalloc_of_record ⟨w1, hc1, hroom (Option.some_ne_none _), hgrow⟩ ha inv k h1
      hflags hsize hmax with ⟨s', h, hnull, -⟩ | ⟨s', p, fr, h, hdone, hlen⟩
    · exact .inl ⟨s', h, hnull⟩
    · exact .inr ⟨s', area, p, fr, h, hdone, hlen⟩

/-- The lookup of a page of an area finds its frame. -/
theorem exec_lookupArea (inv : KernelInv s.paging) (hn : KvaPage n)
    (hmap : kvaMap s.paging n = some (vmallocMapping f)) (o : OwnedFrame s.slab area f) :
    ∃ flags, exec (lookupKernel (n * KVA_PAGE_SIZE)) s = (.ok (.ok (f * 4096, flags)), s) ∧
      pmmPhysToPage s (f * 4096) = some f := by
  have h := exec_lookupKernel inv hn
  rw [hmap] at h
  exact ⟨_, h, o.physToPage⟩

section

variable (inv : KernelInv s.paging) (hmapped : AreaMapped s.paging p fr)
  (howned : ∀ f ∈ fr, OwnedFrame s.slab area f)

include inv hmapped howned

/-- The first loop of `vfree` finds every page in order. -/
theorem exec_vfreeCheckLoop (hkva : ∀ j < fr.length, KvaPage (p + j)) : ∀ n i, i + n = fr.length →
      exec (vfreeCheckLoop area (p * KVA_PAGE_SIZE) n i) s = (.ok ⟨⟩, s) := by
  intro n
  induction n with
  | zero => exact fun i _ => rfl
  | succ n ih =>
    intro i hi
    have hlt : i < fr.length := by omega
    have o := howned _ (getElem_mem hlt)
    obtain ⟨flags, h, hphys⟩ := exec_lookupArea inv (hkva i hlt)
      (hmapped i _ (getElem?_eq_getElem hlt)) o
    rw [Nat.add_mul] at h
    rw [vfreeCheckLoop, exec_bind_of_ok h]
    rw [exec_get_bind, hphys]
    dsimp only
    rw [if_neg (by simp [o.vmalloc, o.word_eq])]
    exact ih (i + 1) (by omega)

/-- A call of `vfree` that gives the area back. -/
structure VfreeDone (s s' : VmState) (live : List KvaRange) (held : ℕ → List ℕ) (area p : ℕ)
    (fr : List ℕ) : Prop where
  cache_eq : s'.vmallocAreaCache = s.vmallocAreaCache
  areas : ∀ a ≠ area, s'.areas a = s.areas a
  kernel : KernelInv s'.paging
  map_eq : kvaMap s'.paging = remove (kvaMap s.paging) p fr.length
  kva : KvaReserved s'.kva live
  slab : SlabWorldInv ⟨s'.slab, update held s.vmallocAreaCache
    ((held s.vmallocAreaCache).erase area)⟩
  inUse : s'.slab.inUse s.vmallocAreaCache = true
  spans_eq : s'.slab.spans = s.slab.spans
  freed : ∀ f ∈ fr, ¬ s'.slab.Allocated f
  others : ∀ f, f ∉ fr → s'.slab.pages f = s.slab.pages f ∨
    s.slab.Marked f ∧ s'.slab.pages f = unmarkedPage (s.slab.pages f)

variable (k : KvaReserved s.kva (⟨p * KVA_PAGE_SIZE, fr.length * KVA_PAGE_SIZE⟩ :: live))
  (w : SlabWorldInv ⟨s.slab, held⟩) (ha : area ∈ held s.vmallocAreaCache) (hnodup : fr.Nodup)
  (hguard : kvaMap s.paging (p + fr.length) = none)

include k w ha hnodup hguard

theorem exec_vfreeArea :
    ∃ s', exec (vfreeArea area (p * KVA_PAGE_SIZE) fr.length) s = (.ok ⟨⟩, s') ∧
      VfreeDone s s' live held area p fr := by
  have hkva : ∀ j < fr.length, KvaPage (p + j) := fun j hj => k.head_kvaPage hj.le
  have hcheck := exec_vfreeCheckLoop inv hmapped howned hkva fr.length 0 (Nat.zero_add _)
  have hafter := exec_lookupKernel inv (k.head_kvaPage le_rfl)
  rw [hguard, Nat.add_mul] at hafter
  obtain ⟨s1, h1, r⟩ : ∃ s', exec (vfreeLoop (p * KVA_PAGE_SIZE) fr.length 0) s = (.ok ⟨⟩, s') ∧
      Released s s' p fr := by
    refine releaseLoop_spec (fun _ => rfl) (fun n i s pa flags h => ?_) fr 0 s inv hnodup hkva
      hmapped howned
    rw [Nat.add_mul] at h ⊢
    rw [vfreeLoop, exec_bind_of_ok h]
  have hnot : ∀ f, s.slab.Marked f → f ∉ fr := fun f hf h => hf (howned f h).not_slab
  have w1 : SlabWorldInv ⟨s1.slab, held⟩ := by
    rw [r.same]
    exact w.setPages fun f hf => r.others f (hnot f hf)
  have ha1 : area ∈ held s1.vmallocAreaCache := by rw [r.same]; exact ha
  obtain ⟨kva, slab, h2, k', w', hc, hshrink, -⟩ := exec_vmallocReleaseArea r.kernel
    (by rw [r.same]; exact k) w1 ha1
  have hcache : s1.vmallocAreaCache = s.vmallocAreaCache := by rw [r.same]
  rw [hcache] at w' hc
  refine ⟨{ s1 with
      kva := kva, slab := slab
      areas := update s1.areas area { s1.areas area with magic := 0 }
      vmallocAreaCountValue := s1.vmallocAreaCountValue - 1
      vmallocPageCountValue := s1.vmallocPageCountValue - fr.length },
    ?_, hcache, fun a hne => ?_, r.kernel, r.map_eq, k', w', hc, ?_, fun f hf => ?_, fun f hf => ?_⟩
  · unfold vfreeArea
    rw [exec_bind_of_ok hcheck]
    refine (exec_bind_of_ok hafter).trans ?_
    rw [exec_bind_of_ok h1]
    exact (exec_bind_of_ok h2).trans rfl
  · dsimp only
    rw [update_of_ne hne, r.same]
  · exact hshrink.spans_eq.trans (by rw [r.same])
  · -- The frame is free by now, so it is in no slab.
    have hfree := freedPage_not_allocated (r.freed f hf)
    have hpage := (hshrink.pages f).resolve_right fun h => hfree h.1.allocated
    rwa [SlabState.Allocated, hpage]
  · have := hshrink.pages f
    rwa [SlabState.Marked, r.others f hf] at this

/-- `vfree` of the head of an area. -/
theorem exec_vfree
    (hrec : s.areas area = ⟨VMALLOC_AREA_MAGIC, p * KVA_PAGE_SIZE, fr.length⟩) :
    ∃ s', exec (vfree (p * KVA_PAGE_SIZE)) s = (.ok ⟨⟩, s') ∧
      VfreeDone s s' live held area p fr := by
  obtain ⟨s', h, hdone⟩ := exec_vfreeArea inv hmapped howned k w ha hnodup hguard
  refine ⟨s', ?_, hdone⟩
  obtain ⟨hlow, hhigh, -, -, hne⟩ := k.inside mem_cons_self
  dsimp only at hlow hhigh
  have hlen : 0 < fr.length := by
    rw [KvaRange.pages, Nat.mul_div_cancel _ (by decide : 0 < KVA_PAGE_SIZE)] at hne
    omega
  have o := howned _ (getElem_mem hlen)
  obtain ⟨flags, hlook, hphys⟩ := exec_lookupArea inv (k.head_kvaPage (Nat.zero_le _))
    (hmapped 0 _ (getElem?_eq_getElem hlen)) o
  rw [Nat.add_zero] at hlook
  have hbase : 0 < VM_KVA_BASE := by decide
  unfold vfree
  rw [if_neg (by omega), if_neg, exec_bind_of_ok hlook]
  · rw [exec_get_bind, hphys]
    dsimp only
    obtain ⟨-, -, -, -, -, -, -, -, -, hrecord⟩ := w.held_slot ha
    rw [if_neg o.vmalloc, o.word_eq, hrec, if_neg (by simp [hrecord]), if_neg (by simp)]
    exact h
  · have hmod : p * KVA_PAGE_SIZE % 4096 = 0 := Nat.mul_mod_left p KVA_PAGE_SIZE
    have hguard : 0 < KVA_GUARD_SIZE := by decide
    omega

end

end Bongos.Mm
