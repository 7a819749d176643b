import Bongos.Mm.MmioCalls
import Bongos.Mm.VmallocCalls

/-!
# The kernel virtual area over whole runs

The world is the state of the four allocators with what callers hold: the records of the live areas
of `vmalloc`, which are the objects taken from the cache of records, and the ranges of the device
mappings. The invariant says that the reservations are exactly those of the areas and of the device
mappings, that an area's pages are mapped to frames that carry its record, and that nothing else of
the kernel virtual area is mapped. It is proved for every call that returns, with any answers of the
memory manager.
-/

namespace Bongos.Mm

open Arch FallibleState RangeMap List

open Function (update update_of_ne update_self)

/-- The state, with the objects of every slab cache that callers hold and the device mappings. -/
structure VmWorld where
  st : VmState
  held : ℕ → List ℕ
  mmio : List KvaRange

/-- The records of the live areas. -/
def VmWorld.areas (w : VmWorld) : List ℕ := w.held w.st.vmallocAreaCache

/-- The reservation of an area. -/
def VmState.areaRange (s : VmState) (area : ℕ) : KvaRange :=
  ⟨(s.areas area).va, (s.areas area).pages * KVA_PAGE_SIZE⟩

/-- The reservations: those of the areas, and those of the device mappings. -/
def VmWorld.ranges (w : VmWorld) : List KvaRange := w.areas.map w.st.areaRange ++ w.mmio

/-- The record is that of an area on the frames `fr`. -/
structure AreaOk (s : VmState) (area : ℕ) (fr : List ℕ) : Prop where
  magic_eq : (s.areas area).magic = VMALLOC_AREA_MAGIC
  pages_eq : (s.areas area).pages = fr.length
  nodup : fr.Nodup
  mapped : AreaMapped s.paging (s.areaRange area).page fr
  owned : ∀ f ∈ fr, OwnedFrame s.slab area f

/-- A page of the area is mapped to the frame. -/
def FrameIn (s : VmState) (area f : ℕ) : Prop :=
  ∃ n, (s.areaRange area).Covers n ∧ kvaMap s.paging n = some (vmallocMapping f)

/-- What holds between calls. -/
structure VmInv (w : VmWorld) : Prop where
  kernel : KernelInv w.st.paging
  kva : KvaReserved w.st.kva w.ranges
  slab : SlabWorldInv ⟨w.st.slab, w.held⟩
  inUse : w.st.slab.inUse w.st.vmallocAreaCache = true
  area : ∀ a ∈ w.areas, ∃ fr, AreaOk w.st a fr
  mmio : ∀ r ∈ w.mmio, ∀ n, r.Covers n → MmioPage w.st.paging n
  support : ∀ n, kvaMap w.st.paging n ≠ none → ∃ r ∈ w.ranges, r.Covers n
  /-- The mark of `vmalloc` is on frames of live areas only. -/
  marks : ∀ f, (w.st.slab.pages f).flags &&& PAGE_F_VMALLOC ≠ 0 →
    (w.st.slab.pages f).privateWord ∈ w.areas ∧
      FrameIn w.st (w.st.slab.pages f).privateWord f

/-! ## Runs -/

/-- The record that the frame of a page names. -/
def VmState.headRecord (s : VmState) (va : ℕ) : ℕ :=
  match kvaMap s.paging (va / KVA_PAGE_SIZE) with
  | none => 0
  | some m => (s.slab.pages (m.pa / 4096)).privateWord

/-- What the other users of the slab allocator and of the memory manager do between the calls. They
leave the records of areas and the frames of areas alone. -/
structure Elsewhere (w w' : VmWorld) : Prop where
  same : w'.st = { w.st with slab := w'.st.slab }
  mmio_eq : w'.mmio = w.mmio
  slab : SlabWorldInv ⟨w'.st.slab, w'.held⟩
  inUse : w'.st.slab.inUse w.st.vmallocAreaCache = true
  held_eq : w'.held w.st.vmallocAreaCache = w.held w.st.vmallocAreaCache
  spans_eq : w'.st.slab.spans = w.st.slab.spans
  pages : ∀ f, (w.st.slab.pages f).flags &&& PAGE_F_VMALLOC ≠ 0 ∨
    (w'.st.slab.pages f).flags &&& PAGE_F_VMALLOC ≠ 0 → w'.st.slab.pages f = w.st.slab.pages f

/-- One call that returns, with any arguments and any answers of the memory manager, or what others
do. -/
inductive VmStep : VmWorld → VmWorld → Prop
  | mapMmio {w : VmWorld} {ans : VmAnswers} {pa size : BitVec 64} {va : ℕ} {st : VmState}
      (ha : ans.Fresh) (h : exec (vmmMapMmio ans pa.toNat size.toNat) w.st = (.ok (.ok va), st)) :
      VmStep w { w with st := st, mmio := mmioRange va size.toNat :: w.mmio }
  | mapMmioFail {w : VmWorld} {ans : VmAnswers} {pa size : BitVec 64} {e : Status} {st : VmState}
      (ha : ans.Fresh) (h : exec (vmmMapMmio ans pa.toNat size.toNat) w.st = (.ok (.error e), st)) :
      VmStep w { w with st := st }
  | unmapMmio {w : VmWorld} {va size : BitVec 64} {st : VmState}
      (h : exec (vmmUnmapMmio va.toNat size.toNat) w.st = (.ok ⟨⟩, st)) :
      VmStep w { w with st := st, mmio := w.mmio.erase (mmioRange va.toNat size.toNat) }
  | vmalloc {w : VmWorld} {ans : VmAnswers} {size : BitVec 64} {flags : BitVec 32} {va : ℕ}
      {st : VmState} (ha : ans.Fresh)
      (h : exec (vmalloc ans size.toNat flags) w.st = (.ok va, st)) (hva : va ≠ 0) :
      VmStep w { w with
        st := st
        held := update w.held w.st.vmallocAreaCache (st.headRecord va :: w.areas) }
  | vmallocNull {w : VmWorld} {ans : VmAnswers} {size : BitVec 64} {flags : BitVec 32}
      {st : VmState} (ha : ans.Fresh) (h : exec (vmalloc ans size.toNat flags) w.st = (.ok 0, st)) :
      VmStep w { w with st := st }
  | vfree {w : VmWorld} {va : BitVec 64} {st : VmState}
      (h : exec (vfree va.toNat) w.st = (.ok ⟨⟩, st)) (hva : va ≠ 0) :
      VmStep w { w with
        st := st
        held := update w.held w.st.vmallocAreaCache
          (w.areas.erase (w.st.headRecord va.toNat)) }
  | elsewhere {w w' : VmWorld} (h : Elsewhere w w') : VmStep w w'

/-- The world after `vmallocInit`: nothing of the kernel virtual area is mapped or reserved, and no
frame carries the mark of `vmalloc`. The slab allocator may have been in use for a while. -/
structure VmBoot (w : VmWorld) : Prop where
  kernel : KernelTables w.st.paging
  kva : ∃ kva, w.st.kva = kvaStateInit kva VM_KVA_BASE VM_KVA_END
  slab : ∃ slabs pages spans caches w₀ debug, Run SlabStep (.init slabs pages spans caches) w₀ ∧
    vmallocInit w₀.st debug = .ok (w.st.vmallocAreaCache, w.st.slab) ∧ w.held = w₀.held
  marks : ∀ f, (w.st.slab.pages f).flags &&& PAGE_F_VMALLOC = 0
  mmio_eq : w.mmio = []

theorem VmBoot.inv {w : VmWorld} (h : VmBoot w) : VmInv w := by
  obtain ⟨kva, hkva⟩ := h.kva
  obtain ⟨slabs, pages, spans, caches, w0, debug, hrun, hinit, hheld⟩ := h.slab
  have i0 : SlabWorldInv w0 :=
    hrun.invariant (.init slabs pages spans caches) fun i h => (i.step h).1
  obtain ⟨i, -, hfree, hused⟩ := slabCacheCreate_spec i0 hinit
  rw [← hheld] at i
  have hareas : w.areas = [] := by
    rw [VmWorld.areas, hheld]
    exact i0.held_nil _ hfree
  have hranges : w.ranges = [] := by rw [VmWorld.ranges, hareas, h.mmio_eq]; rfl
  refine ⟨h.kernel.inv, ?_, i, hused, ?_, ?_, fun n hn => ?_, fun f hf => absurd (h.marks f) hf⟩
  · rw [hranges, hkva]
    exact .init kva
  · rw [hareas]
    simp
  · rw [h.mmio_eq]
    simp
  · rw [kvaMap, h.kernel.unmapped n] at hn
    exact absurd rfl hn

/-! ## Steps -/

section Steps

variable {w w' : VmWorld} {s s' st : VmState} {live rest : List KvaRange} {r r' : KvaRange}
  {a area n p : ℕ} {fr : List ℕ}

/-- The first of the reservations shares no page with the others. -/
theorem KvaReserved.head_apart {kva : KvaState} (k : KvaReserved kva (r :: live)) (hr' : r' ∈ live)
    (h' : r'.Covers n) : ¬ r.Covers n := by
  intro h
  have hr : r' = r := k.eq_of_covers mem_cons_self (mem_cons_of_mem _ hr')
    (h.1.trans (Nat.le_succ n)) h.2.le h'
  -- A reservation that is listed twice would overlap itself.
  have hapart := (pairwise_append.1 k.inv.layout.tiling.apart).2.1
  have hself := (pairwise_cons.1 hapart).1 r.piece (mem_map_of_mem (hr ▸ hr'))
  have hne := k.inv.layout.tiling.nonempty r.piece
    (mem_append_right _ (mem_map_of_mem mem_cons_self))
  rcases hself with hself | hself <;> omega

theorem VmState.areaRange_pages (s : VmState) (a : ℕ) : (s.areaRange a).pages = (s.areas a).pages :=
  Nat.mul_div_cancel _ (by decide)

theorem VmState.areaRange_congr (h : s'.areas a = s.areas a) : s'.areaRange a = s.areaRange a := by
  rw [VmState.areaRange, h]
  rfl

/-- An area is not touched by what happens elsewhere. -/
theorem AreaOk.congr (o : AreaOk s a fr) (hrec : s'.areas a = s.areas a)
    (hmap : ∀ n, (s.areaRange a).Covers n → kvaMap s'.paging n = kvaMap s.paging n)
    (hspans : s'.slab.spans = s.slab.spans)
    (hpages : ∀ f, OwnedFrame s.slab a f → s'.slab.pages f = s.slab.pages f) : AreaOk s' a fr := by
  refine ⟨by rw [hrec]; exact o.magic_eq, by rw [hrec]; exact o.pages_eq, o.nodup, fun j f hj => ?_,
    fun f hf => (o.owned f hf).congr hspans (hpages f (o.owned f hf))⟩
  have hlt : j < fr.length := (List.getElem?_eq_some_iff.1 hj).1
  rw [VmState.areaRange_congr hrec, hmap]
  · exact o.mapped j f hj
  · refine ⟨Nat.le_add_right _ _, ?_⟩
    rw [s.areaRange_pages, o.pages_eq]
    omega

theorem FrameIn.congr {f : ℕ} (h : FrameIn s a f) (hrec : s'.areas a = s.areas a)
    (hmap : ∀ n, (s.areaRange a).Covers n → kvaMap s'.paging n = kvaMap s.paging n) :
    FrameIn s' a f := by
  obtain ⟨n, hn, h⟩ := h
  refine ⟨n, ?_, (hmap n hn).trans h⟩
  rwa [VmState.areaRange_congr hrec]

theorem AreaOk.mem {f : ℕ} (o : AreaOk s a fr) (h : FrameIn s a f) : f ∈ fr := by
  obtain ⟨n, ⟨hn, hlt⟩, hmap⟩ := h
  rw [s.areaRange_pages, o.pages_eq] at hlt
  obtain ⟨j, rfl⟩ := Nat.exists_eq_add_of_le hn
  have hj : j < fr.length := by omega
  have hmapped := o.mapped j _ (getElem?_eq_getElem hj)
  rw [hmap] at hmapped
  have hpa : f * 4096 = fr[j] * 4096 := congrArg KvaMapping.pa (Option.some.inj hmapped)
  have hf : f = fr[j] := by omega
  exact hf ▸ getElem_mem hj

/-- The map, the reservations, the areas, and the frames of areas are the same. -/
theorem VmInv.frame (i : VmInv w) (hcache : w'.st.vmallocAreaCache = w.st.vmallocAreaCache)
    (hareas : w'.areas = w.areas) (hmmio : w'.mmio = w.mmio)
    (hrec : ∀ a ∈ w.areas, w'.st.areas a = w.st.areas a) (hkernel : KernelInv w'.st.paging)
    (hmap : kvaMap w'.st.paging = kvaMap w.st.paging) (hkva : KvaReserved w'.st.kva w.ranges)
    (hslab : SlabWorldInv ⟨w'.st.slab, w'.held⟩)
    (hinUse : w'.st.slab.inUse w.st.vmallocAreaCache = true)
    (hspans : w'.st.slab.spans = w.st.slab.spans)
    (hpages : ∀ f, (w.st.slab.pages f).flags &&& PAGE_F_VMALLOC ≠ 0 ∨
      (w'.st.slab.pages f).flags &&& PAGE_F_VMALLOC ≠ 0 →
      w'.st.slab.pages f = w.st.slab.pages f) : VmInv w' := by
  have hranges : w'.ranges = w.ranges := by
    rw [VmWorld.ranges, VmWorld.ranges, hareas, hmmio]
    exact congrArg (· ++ w.mmio) (map_congr_left fun a ha => VmState.areaRange_congr (hrec a ha))
  refine ⟨hkernel, hranges ▸ hkva, hslab, hcache ▸ hinUse, fun a ha => ?_, fun r hr n hn => ?_,
    fun n hn => ?_, fun f hf => ?_⟩
  · rw [hareas] at ha
    obtain ⟨fr, o⟩ := i.area a ha
    exact ⟨fr, o.congr (hrec a ha) (fun n _ => by rw [hmap]) hspans
      fun f hf => hpages f (.inl hf.vmalloc)⟩
  · rw [hmmio] at hr
    rw [MmioPage, hmap]
    exact i.mmio r hr n hn
  · rw [hmap] at hn
    rw [hranges]
    exact i.support n hn
  · have hpage := hpages f (.inr hf)
    rw [hpage] at hf ⊢
    obtain ⟨hmem, hin⟩ := i.marks f hf
    rw [hareas]
    exact ⟨hmem, hin.congr (hrec _ hmem) fun n _ => by rw [hmap]⟩

theorem VmInv.of_elsewhere (i : VmInv w) (h : Elsewhere w w') : VmInv w' := by
  have hst := h.same
  have hcache : w'.st.vmallocAreaCache = w.st.vmallocAreaCache := by rw [hst]
  refine i.frame hcache ?_ h.mmio_eq (fun a _ => by rw [hst]) ?_ (by rw [hst]) ?_ h.slab h.inUse
    h.spans_eq h.pages
  · rw [VmWorld.areas, hcache]
    exact h.held_eq
  · rw [hst]
    exact i.kernel
  · rw [hst]
    exact i.kva

/-- A frame outside `fr` that carries the mark of `vmalloc` before or after is as it was. -/
theorem FramesKept.vmalloc {t t' : SlabState} {f : ℕ} (h : FramesKept t t' fr) (hf : f ∉ fr)
    (hmark : (t.pages f).flags &&& PAGE_F_VMALLOC ≠ 0 ∨ (t'.pages f).flags &&& PAGE_F_VMALLOC ≠ 0) :
    t'.pages f = t.pages f := by
  refine (h.pages f hf).resolve_right fun hfree => ?_
  have hold : (t.pages f).flags &&& PAGE_F_VMALLOC = 0 := by
    by_contra hne
    exact owner_mask_vmalloc hne (not_allocated hfree.1).2
  rcases hmark with hmark | hmark
  · exact hmark hold
  rcases hfree.2 with hfree' | ⟨slab, hslab⟩
  · exact owner_mask_vmalloc hmark (not_allocated hfree').2
  · rw [hslab, markedPage, Nat.and_or_distrib_right, hold] at hmark
    exact hmark (by decide)

section

variable (i : VmInv w)

include i

theorem VmInv.of_vmallocNull (d : VmallocNull w.st st w.ranges w.held) :
    VmInv { w with st := st } := by
  refine i.frame d.cache_eq ?_ rfl d.areas d.kernel d.map_eq d.kva d.slab d.inUse d.frames.spans_eq
    fun f hf => d.frames.vmalloc not_mem_nil hf
  rw [VmWorld.areas, d.cache_eq]
  rfl

/-- A call that leaves the areas alone and has the device mappings `mmio` after it. -/
theorem VmInv.of_mmioCall {mmio : List KvaRange} (c : MmioCall w.st st live)
    (hperm : live.Perm (w.areas.map w.st.areaRange ++ mmio))
    (hold : ∀ a ∈ w.areas, ∀ n, (w.st.areaRange a).Covers n →
      kvaMap st.paging n = kvaMap w.st.paging n)
    (hmmio : ∀ r ∈ mmio, ∀ n, r.Covers n → MmioPage st.paging n)
    (hsupport : ∀ n, kvaMap st.paging n ≠ none → ∃ r ∈ live, r.Covers n) :
    VmInv { w with st := st, mmio := mmio } := by
  have hareas : VmWorld.areas { w with st := st, mmio := mmio } = w.areas := by
    simp only [VmWorld.areas]
    rw [c.same]
  have hrec : st.areas = w.st.areas := by rw [c.same]
  have hslab : st.slab = w.st.slab := by rw [c.same]
  have hranges : VmWorld.ranges { w with st := st, mmio := mmio } =
      w.areas.map w.st.areaRange ++ mmio := by
    rw [VmWorld.ranges, hareas]
    exact congrArg (· ++ mmio) (map_congr_left fun a _ => VmState.areaRange_congr (congrFun hrec a))
  refine ⟨c.kernel, hranges ▸ c.kva.perm hperm, hslab ▸ i.slab, ?_, fun a ha => ?_, hmmio,
    fun n hn => ?_, fun f hf => ?_⟩
  · rw [c.same]
    exact i.inUse
  · rw [hareas] at ha
    obtain ⟨fr, o⟩ := i.area a ha
    exact ⟨fr, o.congr (congrFun hrec a) (hold a ha) (by rw [hslab]) fun f _ => by rw [hslab]⟩
  · obtain ⟨r, hr, hcov⟩ := hsupport n hn
    exact ⟨r, hranges ▸ hperm.mem_iff.1 hr, hcov⟩
  · rw [hslab] at hf ⊢
    obtain ⟨hmem, hin⟩ := i.marks f hf
    rw [hareas]
    exact ⟨hmem, hin.congr (congrFun hrec _) (hold _ hmem)⟩

theorem VmInv.of_mapMmioFail (c : MmioCall w.st st w.ranges)
    (hmap : kvaMap st.paging = kvaMap w.st.paging) : VmInv { w with st := st } := by
  refine i.of_mmioCall c .rfl (fun _ _ _ _ => by rw [hmap]) (fun r hr n hn => ?_) fun n hn => ?_
  · rw [MmioPage, hmap]
    exact i.mmio r hr n hn
  · exact i.support n (hmap ▸ hn)

theorem VmInv.of_mapMmio {g : ℕ → ℕ} (c : MmioCall w.st st (r :: w.ranges))
    (hmap : kvaMap st.paging =
      extend (kvaMap w.st.paging) r.page r.pages fun i => mmioMapping (g i)) :
    VmInv { w with st := st, mmio := r :: w.mmio } := by
  -- The pages of the other reservations are not those of the new one.
  have hold : ∀ r' ∈ w.ranges, ∀ n, r'.Covers n → kvaMap st.paging n = kvaMap w.st.paging n :=
    fun r' hr' n hn => by
      rw [hmap]
      exact if_neg (c.kva.head_apart hr' hn)
  refine i.of_mmioCall c perm_middle.symm
    (fun a ha => hold _ (mem_append_left _ (mem_map_of_mem ha))) (fun r' hr' n hn => ?_)
    fun n hn => ?_
  · rcases mem_cons.1 hr' with rfl | hr'
    · rw [MmioPage, hmap]
      exact ⟨_, if_pos hn⟩
    · rw [MmioPage, hold r' (mem_append_right _ hr') n hn]
      exact i.mmio r' hr' n hn
  · rw [hmap, extend] at hn
    split_ifs at hn with hr
    · exact ⟨r, mem_cons_self, hr⟩
    · obtain ⟨r', hr', hcov⟩ := i.support n hn
      exact ⟨r', mem_cons_of_mem _ hr', hcov⟩

theorem VmInv.of_unmapMmio (hr : r ∈ w.mmio) (c : MmioCall w.st st (w.ranges.erase r))
    (hmap : kvaMap st.paging = remove (kvaMap w.st.paging) r.page r.pages) :
    VmInv { w with st := st, mmio := w.mmio.erase r } := by
  set rest := w.areas.map w.st.areaRange ++ w.mmio.erase r with hrest
  have hperm : w.ranges.Perm (r :: rest) := ((perm_cons_erase hr).append_left _).trans perm_middle
  have hperm' : (w.ranges.erase r).Perm rest :=
    (perm_cons r).1 ((perm_cons_erase (hperm.mem_iff.2 mem_cons_self)).symm.trans hperm)
  have k : KvaReserved w.st.kva (r :: rest) := i.kva.perm hperm
  have hold : ∀ r' ∈ rest, ∀ n, r'.Covers n → kvaMap st.paging n = kvaMap w.st.paging n :=
    fun r' hr' n hn => by
      rw [hmap]
      exact if_neg (k.head_apart hr' hn)
  refine i.of_mmioCall c hperm' (fun a ha => hold _ (mem_append_left _ (mem_map_of_mem ha)))
    (fun r' hr' n hn => ?_) fun n hn => ?_
  · rw [MmioPage, hold r' (mem_append_right _ hr') n hn]
    exact i.mmio r' (mem_of_mem_erase hr') n hn
  · rw [hmap, remove] at hn
    split_ifs at hn with hcov
    · exact absurd rfl hn
    · obtain ⟨r', hr', hcov'⟩ := i.support n hn
      rcases mem_cons.1 (hperm.mem_iff.1 hr') with rfl | hr'
      · exact absurd hcov' hcov
      · exact ⟨r', hperm'.mem_iff.2 hr', hcov'⟩

theorem VmInv.of_vmalloc (d : VmallocDone w.st st w.ranges w.held area p fr) : VmInv { w with
      st := st, held := update w.held w.st.vmallocAreaCache (area :: w.areas) } := by
  set w' : VmWorld := { w with
    st := st, held := update w.held w.st.vmallocAreaCache (area :: w.areas) } with hw'
  have hst : w'.st = st := rfl
  have hareas : w'.areas = area :: w.areas := by
    rw [VmWorld.areas, hw']
    dsimp only
    rw [d.cache_eq, update_self]
  have hrec : ∀ a ∈ w.areas, st.areas a = w.st.areas a := fun a ha => by
    have hne : a ≠ area := fun e => d.record (e ▸ ha)
    rw [d.areas, update_of_ne hne]
  have hself : st.areas area = ⟨VMALLOC_AREA_MAGIC, p * KVA_PAGE_SIZE, fr.length⟩ := by
    rw [d.areas, update_self]
  set r : KvaRange := ⟨p * KVA_PAGE_SIZE, fr.length * KVA_PAGE_SIZE⟩ with hr
  have hrange : st.areaRange area = r := by rw [VmState.areaRange, hself]
  have hpage : r.page = p := Nat.mul_div_cancel _ (by decide)
  have hcovers : ∀ n, r.Covers n ↔ p ≤ n ∧ n < p + fr.length := fun n => by
    have hpages : r.pages = fr.length := Nat.mul_div_cancel _ (by decide)
    rw [KvaRange.Covers, hpage, hpages]
  have hranges : w'.ranges = r :: w.ranges := by
    rw [VmWorld.ranges, hareas, map_cons, cons_append]
    refine congrArg₂ _ hrange (congrArg (· ++ w.mmio) (map_congr_left fun a ha => ?_))
    exact VmState.areaRange_congr (hrec a ha)
  have hold : ∀ r' ∈ w.ranges, ∀ n, r'.Covers n → kvaMap st.paging n = kvaMap w.st.paging n :=
    fun r' hr' n hn => d.outside n fun h => d.kva.head_apart hr' hn ((hcovers n).2 h)
  refine ⟨d.kernel, hranges ▸ d.kva, d.slab, d.cache_eq ▸ d.inUse, fun a ha => ?_,
    fun r' hr' n hn => ?_, fun n hn => ?_, fun f hf => ?_⟩
  · rcases mem_cons.1 (hareas ▸ ha) with rfl | ha
    · refine ⟨fr, by rw [hself], by rw [hself], d.nodup, ?_, d.owned⟩
      rw [hrange, hpage]
      exact d.mapped
    · obtain ⟨fr', o⟩ := i.area a ha
      refine ⟨fr', o.congr (hrec a ha) (hold _ ?_) d.frames.spans_eq fun f hf => ?_⟩
      · exact mem_append_left _ (mem_map_of_mem ha)
      · exact d.frames.vmalloc (fun h => d.fresh f h hf.allocated) (.inl hf.vmalloc)
  · rw [MmioPage, hold r' (mem_append_right _ hr') n hn]
    exact i.mmio r' hr' n hn
  · rw [hranges]
    by_cases hcov : r.Covers n
    · exact ⟨r, mem_cons_self, hcov⟩
    · rw [d.outside n fun h => hcov ((hcovers n).2 h)] at hn
      obtain ⟨r', hr', hcov'⟩ := i.support n hn
      exact ⟨r', mem_cons_of_mem _ hr', hcov'⟩
  · rw [hareas]
    by_cases hmem : f ∈ fr
    · rw [(d.owned f hmem).word_eq]
      obtain ⟨j, hj, rfl⟩ := getElem_of_mem hmem
      refine ⟨mem_cons_self, p + j, ?_, d.mapped j _ (getElem?_eq_getElem hj)⟩
      rw [hst, hrange]
      exact (hcovers _).2 ⟨by omega, by omega⟩
    · have hpage := d.frames.vmalloc hmem (.inr hf)
      rw [hst, hpage] at hf ⊢
      obtain ⟨hlive, hin⟩ := i.marks f hf
      refine ⟨mem_cons_of_mem _ hlive, hin.congr (hrec _ hlive) (hold _ ?_)⟩
      exact mem_append_left _ (mem_map_of_mem hlive)

theorem VmInv.of_vfree (ha : a ∈ w.areas)
    (d : VfreeDone w.st st ((w.areas.erase a).map w.st.areaRange ++ w.mmio) w.held a
      (w.st.areaRange a).page fr) (o : AreaOk w.st a fr) :
    VmInv { w with
      st := st, held := update w.held w.st.vmallocAreaCache (w.areas.erase a) } := by
  set w' : VmWorld := { w with
    st := st, held := update w.held w.st.vmallocAreaCache (w.areas.erase a) } with hw'
  have hst : w'.st = st := rfl
  have hareas : w'.areas = w.areas.erase a := by
    rw [VmWorld.areas, hw']
    dsimp only
    rw [d.cache_eq, update_self]
  have hnodup : w.areas.Nodup := i.slab.held_nodup i.inUse
  have hrec : ∀ b ∈ w.areas.erase a, st.areas b = w.st.areas b := fun b hb =>
    d.areas b (hnodup.mem_erase_iff.1 hb).1
  set rest := (w.areas.erase a).map w.st.areaRange ++ w.mmio with hrest
  have hranges : w'.ranges = rest := by
    rw [VmWorld.ranges, hareas]
    refine congrArg (· ++ w.mmio) (map_congr_left fun b hb => ?_)
    exact VmState.areaRange_congr (hrec b hb)
  have hperm : w.ranges.Perm (w.st.areaRange a :: rest) :=
    ((perm_cons_erase ha).map _).append_right _
  have k : KvaReserved w.st.kva (w.st.areaRange a :: rest) := i.kva.perm hperm
  have hcovers : ∀ n, (w.st.areaRange a).Covers n ↔
      (w.st.areaRange a).page ≤ n ∧ n < (w.st.areaRange a).page + fr.length := fun n => by
    rw [KvaRange.Covers, w.st.areaRange_pages, o.pages_eq]
  have hold : ∀ r' ∈ rest, ∀ n, r'.Covers n → kvaMap st.paging n = kvaMap w.st.paging n :=
    fun r' hr' n hn => by
      rw [d.map_eq]
      exact if_neg fun h => k.head_apart hr' hn ((hcovers n).2 h)
  refine ⟨d.kernel, hranges ▸ d.kva, d.slab, d.cache_eq ▸ d.inUse, fun b hb => ?_,
    fun r' hr' n hn => ?_, fun n hn => ?_, fun f hf => ?_⟩
  · rw [hareas] at hb
    obtain ⟨hne, hb'⟩ := hnodup.mem_erase_iff.1 hb
    obtain ⟨fr', o'⟩ := i.area b hb'
    refine ⟨fr', o'.congr (hrec b hb) (hold _ ?_) d.spans_eq fun f hf => ?_⟩
    · exact mem_append_left _ (mem_map_of_mem hb)
    · refine (d.others f fun h => ?_).resolve_right fun h => h.1 hf.not_slab
      exact hne (hf.word_eq.symm.trans (o.owned f h).word_eq)
  · rw [MmioPage, hold r' (mem_append_right _ hr') n hn]
    exact i.mmio r' hr' n hn
  · rw [hranges]
    rw [hst, d.map_eq, remove] at hn
    split_ifs at hn with hcov
    · exact absurd rfl hn
    · obtain ⟨r', hr', hcov'⟩ := i.support n hn
      rcases mem_cons.1 (hperm.mem_iff.1 hr') with rfl | hr'
      · exact absurd ((hcovers n).1 hcov') hcov
      · exact ⟨r', hr', hcov'⟩
  · have hmem : f ∉ fr := fun h => d.freed f h (.inr (owner_mask_vmalloc hf))
    rcases d.others f hmem with hpage | ⟨-, hpage⟩
    · rw [hst, hpage] at hf ⊢
      obtain ⟨hlive, hin⟩ := i.marks f hf
      have hmem' : (w.st.slab.pages f).privateWord ∈ w.areas.erase a := by
        refine hnodup.mem_erase_iff.2 ⟨fun e => ?_, hlive⟩
        rw [e] at hin
        exact hmem (o.mem hin)
      rw [hareas]
      refine ⟨hmem', hin.congr (hrec _ hmem') (hold _ ?_)⟩
      exact mem_append_left _ (mem_map_of_mem hmem')
    · rw [hst, hpage] at hf
      exact absurd (unmarkedPage_owner _) (owner_mask_vmalloc hf)

end

/-! ## Calls -/

theorem KvaRange.eq_of_pages {kva : KvaState} (k : KvaReserved kva live) (hr : r ∈ live)
    (hva : r'.va = r'.page * KVA_PAGE_SIZE) (hsize : r'.size = r'.pages * KVA_PAGE_SIZE)
    (hpage : r.page = r'.page) (hpages : r.pages = r'.pages) : r = r' := by
  obtain ⟨-, -, h1, h2, -⟩ := k.inside hr
  calc r = ⟨r.va, r.size⟩ := rfl
    _ = ⟨r'.va, r'.size⟩ := by rw [h1, h2, hva, hsize, hpage, hpages]
    _ = r' := rfl

/-- The pages on both sides of a reservation are not mapped. -/
theorem VmInv.guards (i : VmInv w) (hr : r ∈ w.ranges) :
    kvaMap w.st.paging (r.page - 1) = none ∧ kvaMap w.st.paging (r.page + r.pages) = none := by
  obtain ⟨hlow, -, hva, -, -⟩ := i.kva.inside hr
  have hpos : r.page ≠ 0 := by
    intro h
    have hbase : 0 < VM_KVA_BASE := by decide
    rw [h] at hva
    omega
  constructor
  · by_contra hmap
    obtain ⟨r', hr', hcov⟩ := i.support _ hmap
    obtain rfl := i.kva.eq_of_covers hr hr' (by omega) (by omega) hcov
    have := hcov.1
    omega
  · by_contra hmap
    obtain ⟨r', hr', hcov⟩ := i.support _ hmap
    obtain rfl := i.kva.eq_of_covers hr hr' (by omega) (by omega) hcov
    have := hcov.2
    omega

/-- A page of an area is not mapped as device memory is. -/
theorem VmInv.not_mmioPage (i : VmInv w) (ha : a ∈ w.areas) (hn : (w.st.areaRange a).Covers n) :
    ¬ MmioPage w.st.paging n := by
  rintro ⟨pa, hpa⟩
  obtain ⟨fr, o⟩ := i.area a ha
  obtain ⟨hle, hlt⟩ := hn
  rw [w.st.areaRange_pages, o.pages_eq] at hlt
  obtain ⟨j, rfl⟩ := Nat.exists_eq_add_of_le hle
  have hmapped := o.mapped j _ (getElem?_eq_getElem (by omega))
  rw [hpa] at hmapped
  exact absurd (congrArg KvaMapping.cache (Option.some.inj hmapped))
    (by simp [mmioMapping, vmallocMapping])

/-- **Only a device mapping has the shape of one.** The first page belongs to a device mapping,
because areas are mapped with another memory type. If the mapping began before the range or ended
after it, a page on a side of the range would be mapped; if it ended before the end of the range,
its own guard page would be. -/
theorem VmInv.mmio_of_shape (i : VmInv w) {va size : ℕ} (hbytes : MmioBytes va size)
    (shape : MmioShape w.st.paging (mmioRange va size)) : mmioRange va size ∈ w.mmio := by
  obtain ⟨hva, hsize⟩ := hbytes.whole
  have hne := hbytes.pages_ne
  generalize mmioRange va size = r at *
  have hmapped : ∀ n, r.Covers n → MmioPage w.st.paging n := fun n hn => by
    obtain ⟨j, rfl⟩ := Nat.exists_eq_add_of_le hn.1
    exact shape.pages j (by have := hn.2; omega)
  have hsome : ∀ n, MmioPage w.st.paging n → kvaMap w.st.paging n ≠ none := by
    rintro n ⟨pa, hpa⟩
    rw [hpa]
    exact Option.some_ne_none _
  have hfirst := hmapped r.page ⟨le_rfl, by omega⟩
  obtain ⟨r', hr', hcov⟩ := i.support _ (hsome _ hfirst)
  have hmmio : r' ∈ w.mmio := by
    rcases mem_append.1 hr' with h | h
    · obtain ⟨a, ha, rfl⟩ := mem_map.1 h
      exact absurd hfirst (i.not_mmioPage ha hcov)
    · exact h
  have hpage : r'.page = r.page := by
    refine le_antisymm hcov.1 ?_
    by_contra hlt
    exact hsome _ (i.mmio r' hmmio (r.page - 1) ⟨by omega, by have := hcov.2; omega⟩) shape.before
  have hpages : r'.pages = r.pages := by
    refine le_antisymm ?_ ?_
    · by_contra hlt
      exact hsome _ (i.mmio r' hmmio (r.page + r.pages) ⟨by omega, by omega⟩) shape.after
    · by_contra hlt
      refine hsome _ (hmapped (r'.page + r'.pages) ⟨by omega, by omega⟩) ?_
      exact (i.guards hr').2
  exact KvaRange.eq_of_pages i.kva hr' hva hsize hpage hpages ▸ hmmio

theorem AreaOk.pos (o : AreaOk w.st a fr) (i : VmInv w) (ha : a ∈ w.areas) : 0 < fr.length := by
  obtain ⟨-, -, -, -, hne⟩ := i.kva.inside (mem_append_left _ (mem_map_of_mem ha))
  rw [w.st.areaRange_pages, o.pages_eq] at hne
  omega

/-- The frame at the head of an area names its record. -/
theorem headRecord_eq (hmapped : AreaMapped s.paging p fr)
    (howned : ∀ f ∈ fr, OwnedFrame s.slab a f) (hpos : 0 < fr.length) :
    s.headRecord (p * KVA_PAGE_SIZE) = a := by
  have hmap := hmapped 0 _ (getElem?_eq_getElem hpos)
  rw [Nat.add_zero] at hmap
  rw [VmState.headRecord, Nat.mul_div_cancel _ (by decide : 0 < KVA_PAGE_SIZE), hmap]
  dsimp only [vmallocMapping]
  rw [Nat.mul_div_cancel _ (by decide)]
  exact (howned _ (getElem_mem hpos)).word_eq

theorem VmInv.headRecord (i : VmInv w) (ha : a ∈ w.areas) :
    w.st.headRecord (w.st.areas a).va = a := by
  obtain ⟨fr, o⟩ := i.area a ha
  obtain ⟨-, -, hva, -, -⟩ := i.kva.inside (mem_append_left _ (mem_map_of_mem ha))
  have hva : (w.st.areas a).va = (w.st.areaRange a).page * KVA_PAGE_SIZE := hva
  rw [hva]
  exact headRecord_eq o.mapped o.owned (o.pos i ha)

/-- `vfree` of the head of a live area returns. -/
theorem VmInv.vfree_returns (i : VmInv w) (ha : a ∈ w.areas) (o : AreaOk w.st a fr) :
    ∃ st, exec (vfree (w.st.areas a).va) w.st = (.ok ⟨⟩, st) ∧
      VfreeDone w.st st ((w.areas.erase a).map w.st.areaRange ++ w.mmio) w.held a
        (w.st.areaRange a).page fr := by
  have hr : w.st.areaRange a ∈ w.ranges := mem_append_left _ (mem_map_of_mem ha)
  have hperm : w.ranges.Perm
      (w.st.areaRange a :: ((w.areas.erase a).map w.st.areaRange ++ w.mmio)) :=
    ((perm_cons_erase ha).map _).append_right _
  obtain ⟨-, -, hva, -, -⟩ := i.kva.inside hr
  have hva : (w.st.areas a).va = (w.st.areaRange a).page * KVA_PAGE_SIZE := hva
  have hrange : w.st.areaRange a =
      ⟨(w.st.areaRange a).page * KVA_PAGE_SIZE, fr.length * KVA_PAGE_SIZE⟩ := by
    rw [← hva, ← o.pages_eq]
    rfl
  have k := i.kva.perm hperm
  rw [hrange] at k
  have hguard := (i.guards hr).2
  rw [w.st.areaRange_pages, o.pages_eq] at hguard
  have hrec : w.st.areas a =
      ⟨VMALLOC_AREA_MAGIC, (w.st.areaRange a).page * KVA_PAGE_SIZE, fr.length⟩ := by
    rw [← hva, ← o.pages_eq, ← o.magic_eq]
  rw [hva]
  exact exec_vfree i.kernel o.mapped o.owned k i.slab ha o.nodup hguard hrec

/-- A call of `vfree` that returns was given the head of a live area. -/
theorem VmInv.vfree_head (i : VmInv w) {va : ℕ} (hva : va ≠ 0)
    (h : exec (vfree va) w.st = (.ok ⟨⟩, st)) : ∃ a ∈ w.areas, (w.st.areas a).va = va := by
  unfold vfree at h
  rw [if_neg hva] at h
  by_cases hbad : va % 4096 ≠ 0 ∨ va < VM_KVA_BASE ∨ va ≥ VM_KVA_END
  · rw [if_pos hbad] at h
    cases h
  rw [if_neg hbad] at h
  obtain ⟨n, rfl⟩ : ∃ n, va = n * KVA_PAGE_SIZE :=
    ⟨va / 4096, (Nat.div_mul_cancel (Nat.dvd_of_mod_eq_zero (by omega))).symm⟩
  have hn : KvaPage n := by
    simp only [KVA_PAGE_SIZE, VM_KVA_BASE, VM_KVA_END] at hbad
    simp only [KvaPage, size_4k, VM_KVA_BASE, VM_KVA_END]
    omega
  rw [exec_bind_of_ok (exec_lookupKernel i.kernel hn)] at h
  split at h
  · cases h
  rw [exec_get_bind] at h
  split at h
  · cases h
  next f _ =>
    dsimp only at h
    split_ifs at h with hmark _ hhead
    any_goals cases h
    exact ⟨_, (i.marks f hmark).1, not_not.1 hhead⟩

/-- A call of `vmalloc` that returns has either taken everything back or mapped an area. -/
theorem VmInv.vmalloc_returns (i : VmInv w) {ans : VmAnswers} (ha : ans.Fresh) {size va : ℕ}
    {flags : BitVec 32} (h : exec (vmalloc ans size flags) w.st = (.ok va, st)) :
    (va = 0 ∧ VmallocNull w.st st w.ranges w.held) ∨
      (va ≠ 0 ∧ ∃ area p fr, va = p * KVA_PAGE_SIZE ∧ fr.length = (size + 4095) / 4096 ∧
        st.headRecord va = area ∧ VmallocDone w.st st w.ranges w.held area p fr) := by
  have hargs : flags &&& ~~~VMALLOC_FLAGS_VALID = 0 ∧ size ≠ 0 := by
    unfold vmalloc at h
    by_cases hflags : flags &&& ~~~VMALLOC_FLAGS_VALID = 0
    · rw [if_neg (not_not.2 hflags)] at h
      refine ⟨hflags, fun hsize => ?_⟩
      rw [if_pos hsize] at h
      cases h
    · rw [if_pos hflags] at h
      cases h
  rcases exec_vmalloc ha i.kernel i.kva i.slab i.inUse hargs.1 hargs.2 with
    ⟨st', h', d⟩ | ⟨st', area, p, fr, h', d, hlen⟩
  · obtain ⟨hva, rfl⟩ := Prod.mk.inj (h.symm.trans h')
    exact .inl ⟨Except.ok.inj hva, d⟩
  · obtain ⟨hva, rfl⟩ := Prod.mk.inj (h.symm.trans h')
    have hva := Except.ok.inj hva
    have hpos : 0 < fr.length := by
      omega
    refine .inr ⟨?_, area, p, fr, hva, hlen, ?_, d⟩
    · obtain ⟨hlow, -⟩ := d.kva.inside mem_cons_self
      have hbase : 0 < VM_KVA_BASE := by decide
      dsimp only at hlow
      omega
    · rw [hva]
      exact headRecord_eq d.mapped d.owned hpos

/-- **The invariant is kept by every call that returns.** -/
theorem VmInv.step (i : VmInv w) (h : VmStep w w') : VmInv w' := by
  cases h with
  | @mapMmio ans pa size va st ha h =>
    rcases exec_vmmMapMmio i.kernel ha i.kva pa.isLt size.isLt with
      ⟨e, st', h', -, -⟩ | ⟨va', st', h', c, hmap⟩
    · rw [h'] at h
      cases h
    · obtain ⟨hva, rfl⟩ := Prod.mk.inj (h.symm.trans h')
      obtain rfl := Except.ok.inj (Except.ok.inj hva)
      exact i.of_mapMmio c hmap
  | @mapMmioFail ans pa size e st ha h =>
    rcases exec_vmmMapMmio i.kernel ha i.kva pa.isLt size.isLt with
      ⟨e', st', h', c, hmap⟩ | ⟨va', st', h', -, -⟩
    · obtain ⟨-, rfl⟩ := Prod.mk.inj (h.symm.trans h')
      exact i.of_mapMmioFail c hmap
    · rw [h'] at h
      cases h
  | @unmapMmio va size st h =>
    rcases vmmUnmapMmio_checks i.kernel va.isLt size.isLt with
      ⟨hbytes, hshape, -⟩ | ⟨-, bug, h'⟩
    · have hr := i.mmio_of_shape hbytes hshape
      obtain ⟨st', h', c, hmap⟩ := exec_vmmUnmapMmio i.kernel i.kva (mem_append_right _ hr) va.isLt
        size.isLt hbytes hshape
      obtain ⟨-, rfl⟩ := Prod.mk.inj (h.symm.trans h')
      exact i.of_unmapMmio hr c hmap
    · rw [h'] at h
      cases h
  | @vmalloc ans size flags va st ha h hva =>
    rcases i.vmalloc_returns ha h with ⟨h0, -⟩ | ⟨-, area, p, fr, -, -, hhead, d⟩
    · exact absurd h0 hva
    · rw [hhead]
      exact i.of_vmalloc d
  | @vmallocNull ans size flags st ha h =>
    rcases i.vmalloc_returns ha h with ⟨-, d⟩ | ⟨hne, -⟩
    · exact i.of_vmallocNull d
    · exact absurd rfl hne
  | @vfree va st h hva =>
    obtain ⟨a, ha, hhead⟩ := i.vfree_head (by simpa using mt BitVec.toNat_inj.1 hva) h
    obtain ⟨fr, o⟩ := i.area a ha
    obtain ⟨st', h', d⟩ := i.vfree_returns ha o
    rw [hhead] at h'
    obtain ⟨-, rfl⟩ := Prod.mk.inj (h.symm.trans h')
    rw [← hhead, i.headRecord ha]
    exact i.of_vfree ha d o
  | elsewhere h => exact i.of_elsewhere h

theorem VmBoot.run {w0 : VmWorld} (h0 : VmBoot w0) (hrun : Run VmStep w0 w) : VmInv w :=
  hrun.invariant h0.inv VmInv.step

end Steps

/-! ## A boot -/

/-- A memory manager that has nothing left. -/
def noAnswers : VmAnswers := ⟨fun _ _ => .error .errNoMemory, fun _ _ _ => none, fun _ => none⟩

theorem noAnswers_fresh : noAnswers.Fresh where
  tables _ := noTables_fresh
  slabs _ := fun _ _ _ h => nomatch h
  slabs_unallocated _ := fun _ _ _ h => nomatch h
  frames _ _ h := nomatch h

/-- The world after `vmallocInit`, with 1024 frames and one page table for the start of the kernel
virtual area. -/
def bootVm : VmWorld where
  st := {
    paging := bootTables 0
    kva := kvaStateInit ⟨0, 0, fun _ => ⟨0, 0⟩, 0, 0⟩ VM_KVA_BASE VM_KVA_END
    slab := { noCaches.st.setCache 0 (newCache sizeofVmallocArea 8 false 0 false) with
      inUse := update noCaches.st.inUse 0 true }
    areas := fun _ => ⟨0, 0, 0⟩
    vmallocAreaCache := 0
    vmallocAreaCountValue := 0
    vmallocPageCountValue := 0 }
  held := noCaches.held
  mmio := []

theorem bootVm_boot : VmBoot bootVm where
  kernel := bootTables_kernel
  kva := ⟨_, rfl⟩
  slab := ⟨_, _, _, _, noCaches, false, .refl, rfl, rfl⟩
  marks _ := Nat.zero_and _
  mmio_eq := rfl

end Bongos.Mm
