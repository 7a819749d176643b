import Bongos.Mm.VmWorld

/-!
# `vmalloc` is all or nothing

A call of `vmalloc` needs a record, a range of the kernel virtual area, and a frame for every page,
and a mapping may need page tables. Any of these may be missing at any page. In every reachable
state a call that returns NULL leaves the areas, the reservations, the map, and the frames as they
were, with one exception: the cache of records may have grown. Its slab stays with the cache, so the
frames of that slab are allocated afterwards.
-/

namespace Bongos.Mm

open Arch FallibleState RangeMap List
open DyadicBlocks (InBlock)

variable {w w₀ : VmWorld} {st : VmState} {ans : VmAnswers} {a area n p va size f : ℕ} {fr : List ℕ}

/-! ## Views of the state -/

/-- What `vfree` takes for the head of an area of `n` pages. -/
def VmState.LiveArea (s : VmState) (va n : ℕ) : Prop :=
  ∃ f, kvaMap s.paging (va / KVA_PAGE_SIZE) = some (vmallocMapping f) ∧
    (s.slab.pages f).flags &&& PAGE_F_VMALLOC ≠ 0 ∧
    s.areas (s.slab.pages f).privateWord = ⟨VMALLOC_AREA_MAGIC, va, n⟩

/-- The live areas are those whose records callers hold. -/
theorem VmInv.liveArea_iff (i : VmInv w) :
    w.st.LiveArea va n ↔ ∃ a ∈ w.areas, w.st.areas a = ⟨VMALLOC_AREA_MAGIC, va, n⟩ := by
  constructor
  · rintro ⟨f, -, hmark, hrec⟩
    exact ⟨_, (i.marks f hmark).1, hrec⟩
  · rintro ⟨a, ha, hrec⟩
    obtain ⟨fr, o⟩ := i.area a ha
    have hpos := o.pos i ha
    have own := o.owned _ (getElem_mem hpos)
    have hpage : (w.st.areaRange a).page = va / KVA_PAGE_SIZE := by
      rw [KvaRange.page, VmState.areaRange, hrec]
    refine ⟨fr[0], ?_, own.vmalloc, by rw [own.word_eq]; exact hrec⟩
    rw [← hpage]
    exact o.mapped 0 _ (getElem?_eq_getElem hpos)

/-- The mark of the owner of a frame. -/
def ownerFlags (t : SlabState) (f : ℕ) : ℕ := (t.pages f).flags &&& PAGE_F_OWNER_MASK

/-- The frame was free, and is a frame of a slab now. -/
def JoinedSlab (t t' : SlabState) (f : ℕ) : Prop :=
  ¬ t.Allocated f ∧ ∃ slab, t'.pages f = markedPage (t.pages f) slab

/-- The frame was a frame of a slab, and has gone back to the memory manager. -/
def LeftSlab (t t' : SlabState) (f : ℕ) : Prop :=
  t.Marked f ∧ t'.pages f = unmarkedPage (t.pages f)

/-- The frame is as allocated as before, with the same owner. -/
def SameFrame (t t' : SlabState) (f : ℕ) : Prop :=
  (t'.Allocated f ↔ t.Allocated f) ∧ ownerFlags t' f = ownerFlags t f

theorem SameFrame.of_eq {t t' : SlabState} (h : t'.pages f = t.pages f) : SameFrame t t' f := by
  refine ⟨?_, ?_⟩
  · rw [SlabState.Allocated, h]
    rfl
  · rw [ownerFlags, h]
    rfl

theorem FramesKept.same {t t' : SlabState} (h : FramesKept t t' fr) (hf : f ∉ fr)
    (hjoined : ¬ JoinedSlab t t' f) : SameFrame t t' f := by
  rcases h.pages f hf with he | ⟨hfree, hfree' | hslab⟩
  · exact .of_eq he
  · exact ⟨iff_of_false hfree' hfree, (not_allocated hfree').2.trans (not_allocated hfree).2.symm⟩
  · exact absurd ⟨hfree, hslab⟩ hjoined

/-! ## The three outcomes -/

/-- Everything is as it was, apart from frames that the cache of records has taken. -/
structure AllocNothing (w : VmWorld) (st : VmState) : Prop where
  live : ∀ va n, st.LiveArea va n ↔ w.st.LiveArea va n
  reserved : ∀ x, st.kva.Reserved x ↔ w.st.kva.Reserved x
  ranges : KvaReserved st.kva w.ranges
  map_eq : kvaMap st.paging = kvaMap w.st.paging
  frames : ∀ f, ¬ JoinedSlab w.st.slab st.slab f → SameFrame w.st.slab st.slab f

/-- An area of fresh frames was added at the page `p`. -/
structure AllocArea (w : VmWorld) (st : VmState) (p : ℕ) (fr : List ℕ) : Prop where
  nodup : fr.Nodup
  fresh : ∀ f ∈ fr, ¬ w.st.slab.Allocated f
  marked : ∀ f ∈ fr, st.slab.Allocated f ∧ ownerFlags st.slab f = PAGE_F_VMALLOC
  unmapped : ∀ j < fr.length, kvaMap w.st.paging (p + j) = none
  map_eq : kvaMap st.paging =
    extend (kvaMap w.st.paging) p fr.length fun j => vmallocMapping (fr.getD j 0)
  before : kvaMap st.paging (p - 1) = none
  after : kvaMap st.paging (p + fr.length) = none
  live : ∀ va n, st.LiveArea va n ↔
    w.st.LiveArea va n ∨ va = p * KVA_PAGE_SIZE ∧ n = fr.length
  reserved : ∀ x, st.kva.Reserved x ↔ w.st.kva.Reserved x ∨
    KvaRange.Holds ⟨p * KVA_PAGE_SIZE, fr.length * KVA_PAGE_SIZE⟩ x
  ranges : KvaReserved st.kva (⟨p * KVA_PAGE_SIZE, fr.length * KVA_PAGE_SIZE⟩ :: w.ranges)
  frames : ∀ f, f ∉ fr → ¬ JoinedSlab w.st.slab st.slab f → SameFrame w.st.slab st.slab f

/-- The area of `n` pages at `va` is gone, with its mapping, its frames, and its reservation. -/
structure FreeArea (w : VmWorld) (st : VmState) (va n : ℕ) : Prop where
  map_eq : kvaMap st.paging = remove (kvaMap w.st.paging) (va / KVA_PAGE_SIZE) n
  freed : ∀ j < n, ∃ f, kvaMap w.st.paging (va / KVA_PAGE_SIZE + j) = some (vmallocMapping f) ∧
    ¬ st.slab.Allocated f
  frames : ∀ f, (∀ j < n, kvaMap w.st.paging (va / KVA_PAGE_SIZE + j) ≠ some (vmallocMapping f)) →
    ¬ LeftSlab w.st.slab st.slab f → SameFrame w.st.slab st.slab f
  live : ∀ va' n', st.LiveArea va' n' ↔ w.st.LiveArea va' n' ∧ va' ≠ va
  reserved : ∀ x, st.kva.Reserved x ↔
    w.st.kva.Reserved x ∧ ¬ KvaRange.Holds ⟨va, n * KVA_PAGE_SIZE⟩ x

theorem VmInv.allocNothing (i : VmInv w) (d : VmallocNull w.st st w.ranges w.held) :
    AllocNothing w st := by
  have i' := i.of_vmallocNull d
  have hareas : VmWorld.areas { w with st := st } = w.areas := by
    rw [VmWorld.areas, d.cache_eq]
    rfl
  refine ⟨fun va n => ?_, fun x => ?_, d.kva, d.map_eq, fun f hf => d.frames.same not_mem_nil hf⟩
  · have h : st.LiveArea va n ↔ _ := i'.liveArea_iff
    rw [h, hareas, i.liveArea_iff]
    refine exists_congr fun a => and_congr_right fun ha => ?_
    rw [d.areas a ha]
  · rw [d.kva.reserved_iff, i.kva.reserved_iff]

theorem OwnedFrame.ownerFlags_eq {t : SlabState} (o : OwnedFrame t area f) :
    ownerFlags t f = PAGE_F_VMALLOC := by
  have hbit : (t.pages f).flags &&& PAGE_F_VMALLOC = PAGE_F_VMALLOC := by
    have h := o.vmalloc
    rw [show PAGE_F_VMALLOC = 2^2 by decide] at h ⊢
    rw [Nat.and_two_pow] at h ⊢
    cases hb : (t.pages f).flags.testBit 2
    · rw [hb] at h
      exact absurd rfl h
    · rfl
  rw [ownerFlags, PAGE_F_OWNER_MASK, Nat.and_or_distrib_left, o.not_slab, hbit]
  rfl

theorem VmInv.allocArea (i : VmInv w) (d : VmallocDone w.st st w.ranges w.held area p fr) :
    AllocArea w st p fr := by
  have i' := i.of_vmalloc d
  set w' : VmWorld := { w with
    st := st, held := Function.update w.held w.st.vmallocAreaCache (area :: w.areas) } with hw'
  have hareas : w'.areas = area :: w.areas := by
    rw [VmWorld.areas, hw']
    dsimp only
    rw [d.cache_eq, Function.update_self]
  have hself : st.areas area = ⟨VMALLOC_AREA_MAGIC, p * KVA_PAGE_SIZE, fr.length⟩ := by
    rw [d.areas, Function.update_self]
  have hrange : w'.st.areaRange area = ⟨p * KVA_PAGE_SIZE, fr.length * KVA_PAGE_SIZE⟩ := by
    rw [VmState.areaRange, hself]
  have hr : w'.st.areaRange area ∈ w'.ranges :=
    mem_append_left _ (mem_map_of_mem (hareas ▸ mem_cons_self))
  obtain ⟨hbefore, hafter⟩ := i'.guards hr
  rw [hrange] at hbefore hafter
  simp only [KvaRange.page, KvaRange.pages, Nat.mul_div_cancel _ (by decide : 0 < KVA_PAGE_SIZE)]
    at hbefore hafter
  refine ⟨d.nodup, d.fresh, fun f hf => ⟨(d.owned f hf).allocated, (d.owned f hf).ownerFlags_eq⟩,
    d.unmapped, ?_, hbefore, hafter, fun va n => ?_, fun x => (d.kva.reserved_cons i.kva).1, d.kva,
    fun f hf hjoined => d.frames.same hf hjoined⟩
  · funext n
    rw [extend]
    split_ifs with hn
    · obtain ⟨j, rfl⟩ := Nat.exists_eq_add_of_le hn.1
      have hj : j < fr.length := by omega
      rw [Nat.add_sub_cancel_left, getD_eq_getElem _ _ hj]
      exact d.mapped j _ (getElem?_eq_getElem hj)
    · exact d.outside n hn
  · have h : st.LiveArea va n ↔ _ := i'.liveArea_iff
    rw [h, hareas, exists_mem_cons_iff, i.liveArea_iff, or_comm]
    refine or_congr (exists_congr fun a => and_congr_right fun ha => ?_) ?_
    · have hne : a ≠ area := fun e => d.record (e ▸ ha)
      rw [d.areas, Function.update_of_ne hne]
    · rw [hself, VmallocArea.mk.injEq]
      exact ⟨fun h => ⟨h.2.1.symm, h.2.2.symm⟩, fun h => ⟨rfl, h.1.symm, h.2.symm⟩⟩

theorem VmInv.freeArea (i : VmInv w) (ha : a ∈ w.areas) (o : AreaOk w.st a fr)
    (d : VfreeDone w.st st ((w.areas.erase a).map w.st.areaRange ++ w.mmio) w.held a
      (w.st.areaRange a).page fr) : FreeArea w st (w.st.areas a).va (w.st.areas a).pages := by
  have i' := i.of_vfree ha d o
  have hnodup : w.areas.Nodup := i.slab.held_nodup i.inUse
  set w' : VmWorld := { w with
    st := st, held := Function.update w.held w.st.vmallocAreaCache (w.areas.erase a) } with hw'
  have hareas : w'.areas = w.areas.erase a := by
    rw [VmWorld.areas, hw']
    dsimp only
    rw [d.cache_eq, Function.update_self]
  rw [o.pages_eq]
  refine ⟨d.map_eq, fun j hj => ?_, fun f hf hleft => ?_, fun va n => ?_, fun x => ?_⟩
  · exact ⟨fr[j], o.mapped j _ (getElem?_eq_getElem hj), d.freed _ (getElem_mem hj)⟩
  · have hmem : f ∉ fr := fun h => by
      obtain ⟨j, hj, rfl⟩ := getElem_of_mem h
      exact hf j hj (o.mapped j _ (getElem?_eq_getElem hj))
    exact .of_eq ((d.others f hmem).resolve_right hleft)
  · have h : st.LiveArea va n ↔ _ := i'.liveArea_iff
    rw [h, hareas, i.liveArea_iff]
    constructor
    · rintro ⟨b, hb, hrec⟩
      obtain ⟨hne, hb'⟩ := hnodup.mem_erase_iff.1 hb
      have hrec : w.st.areas b = ⟨VMALLOC_AREA_MAGIC, va, n⟩ := (d.areas b hne).symm.trans hrec
      refine ⟨⟨b, hb', hrec⟩, fun hva => hne ?_⟩
      -- The frame at the head of an area names one record.
      have hhead := i.headRecord hb'
      rw [hrec] at hhead
      rw [hva, i.headRecord ha] at hhead
      exact hhead.symm
    · rintro ⟨⟨b, hb, hrec⟩, hva⟩
      have hne : b ≠ a := by
        rintro rfl
        exact hva (by rw [hrec])
      exact ⟨b, hnodup.mem_erase_iff.2 ⟨hne, hb⟩, (d.areas b hne).trans hrec⟩
  · have hperm : w.ranges.Perm
        (w.st.areaRange a :: ((w.areas.erase a).map w.st.areaRange ++ w.mmio)) :=
      ((perm_cons_erase ha).map _).append_right _
    obtain ⟨hiff, hnot⟩ := (i.kva.perm hperm).reserved_cons d.kva
    rw [VmState.areaRange, o.pages_eq] at hiff hnot
    exact ⟨fun h => ⟨hiff.2 (.inl h), fun h' => hnot ⟨h, h'⟩⟩, fun h =>
      (hiff.1 h.1).resolve_right h.2⟩

/-! ## Calls -/

/-- A memory manager that has one frame left, and hands it out as the block of a slab. -/
noncomputable def lastFrame : VmAnswers := { noAnswers with
  slabs := fun _ s order => open Classical in
    if FreshBlock s order 16 ∧ ∀ f, InBlock f 16 order → ¬ s.Allocated f then some 16 else none }

theorem lastFrame_fresh : lastFrame.Fresh where
  tables := noAnswers_fresh.tables
  slabs _ s order pfn h := by
    simp only [lastFrame] at h
    split_ifs at h with hf
    cases h
    exact hf.1
  slabs_unallocated _ s order pfn h := by
    simp only [lastFrame] at h
    split_ifs at h with hf
    cases h
    exact hf.2
  frames := noAnswers_fresh.frames

/-- Without a single frame `vmalloc` returns NULL. -/
theorem vmalloc_noFrames (hframes : ∀ s, ans.frames s = none) {s s' : VmState} {flags : BitVec 32}
    (h : exec (vmalloc ans size flags) s = (.ok va, s')) : va = 0 := by
  unfold vmalloc at h
  split_ifs at h with hflags hsize hmax
  · cases h
  · cases h
  · cases h
    rfl
  obtain ⟨r, s1, -, h⟩ := exec_bind_eq_ok h
  rcases r with _ | area
  · cases h
    rfl
  obtain ⟨⟨⟩, s2, -, h⟩ := exec_bind_eq_ok h
  obtain ⟨r, s3, -, h⟩ := exec_bind_eq_ok h
  rcases r with e | va'
  · obtain ⟨⟨⟩, s4, -, h⟩ := exec_bind_eq_ok h
    cases h
    rfl
  obtain ⟨⟨⟩, s4, -, h⟩ := exec_bind_eq_ok h
  obtain ⟨b, s5, hloop, h⟩ := exec_bind_eq_ok h
  -- The loop has at least one page to map.
  obtain ⟨n, hn⟩ : ∃ n, (size + 4095) / 4096 = n + 1 := ⟨(size + 4095) / 4096 - 1, by omega⟩
  rw [hn, vmallocLoop, exec_bind_of_ok (exec_pmmAllocFrame_none (hframes _))] at hloop
  obtain ⟨⟨⟩, s6, -, hfalse⟩ := exec_bind_eq_ok hloop
  cases hfalse
  cases h
  rfl

/-- **`vmalloc` is all or nothing**: in every reachable state, for all arguments and all answers of
the memory manager, a call that returns NULL leaves the live areas, the reservations, the map, and
the frames as they were, apart from free frames that have joined a slab. A call that succeeds maps
as many distinct fresh frames as the size needs pages, with an unmapped page on each side. A call
with valid arguments returns. `vfree` of the head of a live area takes exactly its mapping, its
frames, and its reservation away, and may return frames of slabs. -/
theorem vmalloc_allOrNothing (h₀ : VmBoot w₀) (hrun : Run VmStep w₀ w) (ha : ans.Fresh)
    (size : BitVec 64) (flags : BitVec 32) :
    (∀ st, exec (vmalloc ans size.toNat flags) w.st = (.ok 0, st) → AllocNothing w st) ∧
    (∀ va st, exec (vmalloc ans size.toNat flags) w.st = (.ok va, st) → va ≠ 0 →
      ∃ p fr, va = p * KVA_PAGE_SIZE ∧ fr.length = (size.toNat + 4095) / 4096 ∧
        AllocArea w st p fr) ∧
    (flags &&& ~~~VMALLOC_FLAGS_VALID = 0 → size ≠ 0 →
      ∃ va st, exec (vmalloc ans size.toNat flags) w.st = (.ok va, st)) ∧
    ∀ va n, w.st.LiveArea va n →
      ∃ st, exec (vfree va) w.st = (.ok ⟨⟩, st) ∧ FreeArea w st va n := by
  have i := h₀.run hrun
  refine ⟨fun st h => ?_, fun va st h hva => ?_, fun hflags hsize => ?_, fun va n hlive => ?_⟩
  · rcases i.vmalloc_returns ha h with ⟨-, d⟩ | ⟨hne, -⟩
    · exact i.allocNothing d
    · exact absurd rfl hne
  · rcases i.vmalloc_returns ha h with ⟨h0, -⟩ | ⟨-, area, p, fr, hp, hlen, -, d⟩
    · exact absurd h0 hva
    · exact ⟨p, fr, hp, hlen, i.allocArea d⟩
  · have hsize : size.toNat ≠ 0 := by simpa using mt BitVec.toNat_inj.1 hsize
    rcases exec_vmalloc ha i.kernel i.kva i.slab i.inUse hflags hsize with ⟨st, h, -⟩ |
      ⟨st, -, p, -, h, -⟩
    · exact ⟨0, st, h⟩
    · exact ⟨_, st, h⟩
  · obtain ⟨a, ha, hrec⟩ := i.liveArea_iff.1 hlive
    obtain ⟨fr, o⟩ := i.area a ha
    obtain ⟨st, h, d⟩ := i.vfree_returns ha o
    have hfree := i.freeArea ha o d
    rw [hrec] at h hfree
    exact ⟨st, h, hfree⟩

/-- With one frame left, a call takes it for the record, finds none for its page, and takes all
back. -/
theorem vmalloc_allOrNothing_noMemory :
    ∃ st, exec (vmalloc lastFrame (1 : BitVec 64).toNat 0) bootVm.st = (.ok 0, st) ∧
      AllocNothing bootVm st := by
  obtain ⟨hnull, -, hreturns, -⟩ := vmalloc_allOrNothing bootVm_boot .refl lastFrame_fresh 1 0
  obtain ⟨va, st, h⟩ := hreturns (by decide) (by decide)
  obtain rfl := vmalloc_noFrames (fun _ => rfl) h
  exact ⟨st, h, hnull st h⟩

/-! ## The cache of records may grow -/

/-- The frame is free at the boot. -/
theorem bootVm_free : ¬ bootVm.st.slab.Allocated f := by
  have hflags : (bootVm.st.slab.pages f).flags &&& PAGE_F_OWNER_MASK = 0 := Nat.zero_and _
  have hstate : (bootVm.st.slab.pages f).state ≠ .allocated := by
    show PageState.reserved ≠ .allocated
    decide
  rw [SlabState.Allocated, not_or, not_not]
  exact ⟨hstate, hflags⟩

/-- The last frame is handed out for the first record. -/
theorem bootVm_record {r : Option ℕ} {slab : SlabState}
    (h : exec (areaAlloc lastFrame) bootVm.st = (.ok r, { bootVm.st with slab := slab })) :
    r ≠ none := by
  have halloc : slabAlloc (lastFrame.slabs bootVm.st) bootVm.st.slab 0 0 = .ok (r, slab) := by
    unfold areaAlloc at h
    rw [exec_get_bind, show bootVm.st.vmallocAreaCache = 0 from rfl] at h
    cases hs : slabAlloc (lastFrame.slabs bootVm.st) bootVm.st.slab 0 0 with
    | error e =>
      rw [hs] at h
      cases h
    | ok r' =>
      rw [hs] at h
      obtain ⟨h1, h2⟩ := Prod.mk.inj h
      have h1 : r'.1 = r := Except.ok.inj h1
      have h2 : r'.2 = slab := congrArg VmState.slab h2
      rw [← h1, ← h2]
  have hframe : lastFrame.slabs bootVm.st bootVm.st.slab 0 = some 16 :=
    if_pos ⟨noCaches_fresh, fun f _ => bootVm_free⟩
  have horder : (bootVm.st.slab.caches 0).layout.order = 0 := by decide +kernel
  have hpick : slabPick (lastFrame.slabs bootVm.st) bootVm.st.slab 0 ≠ none :=
    slabPick_ne_none (horder.symm ▸ hframe)
  obtain ⟨-, -, -, hnone⟩ := slabAlloc_spec bootVm_boot.inv.slab (lastFrame_fresh.slabs _) halloc
  exact mt hnone hpick

/-- A call that returns NULL because there is no frame for its page has taken the last frame for a
record. The slab of the record stays with the cache, so that frame is allocated and carries a
mark. -/
theorem vmalloc_null_growsCache : ∃ w₀ ans st f, VmBoot w₀ ∧ ans.Fresh ∧
    exec (vmalloc ans (1 : BitVec 64).toNat 0) w₀.st = (.ok 0, st) ∧
      ¬ w₀.st.slab.Allocated f ∧ st.slab.Allocated f ∧
      ownerFlags st.slab f ≠ ownerFlags w₀.st.slab f := by
  have i := bootVm_boot.inv
  obtain ⟨r, slab, h₁, w₁, hc₁, hgrow, hroom⟩ := exec_areaAlloc lastFrame_fresh i.slab i.inUse
  obtain ⟨area, rfl⟩ := Option.ne_none_iff_exists'.1 (bootVm_record h₁)
  have t : RecordTaken bootVm.st slab bootVm.held area :=
    ⟨w₁, hc₁, hroom (Option.some_ne_none _), hgrow⟩
  -- The record is an object of a slab, and the frames of a slab are marked.
  obtain ⟨-, k, a, hslab, -⟩ := w₁.held_slot t.mem
  obtain ⟨pfn, -, -, hmarked⟩ := ((w₁.inv _ hc₁).slab hslab).frames
  have hmark : slab.Marked pfn := (hmarked pfn ⟨le_rfl, by simp⟩).2.1
  rcases exec_vmalloc_of_record t lastFrame_fresh i.kernel i.kva h₁
    (by decide : (0 : BitVec 32) &&& ~~~VMALLOC_FLAGS_VALID = 0) (by decide)
    (by decide : ¬ (1 : BitVec 64).toNat > VMALLOC_MAX_SIZE) with ⟨st, h, -, hsame⟩ |
      ⟨st, p, fr, h, d, -⟩
  · have hpage := hsame.marked hmark
    have howner : ownerFlags st.slab pfn ≠ 0 := by
      rw [ownerFlags, hpage]
      exact owner_mask_slab hmark
    refine ⟨bootVm, lastFrame, st, pfn, bootVm_boot, lastFrame_fresh, h, bootVm_free,
      .inr howner, ?_⟩
    have hbefore : ownerFlags bootVm.st.slab pfn = 0 := (not_allocated bootVm_free).2
    rwa [hbefore]
  · have h0 := vmalloc_noFrames (fun _ => rfl) h
    obtain ⟨hlow, -⟩ := d.kva.inside mem_cons_self
    have hbase : 0 < VM_KVA_BASE := by decide
    dsimp only at hlow
    omega

end Bongos.Mm
