import Bongos.Arch.PagingRefinement
import Bongos.Mm.KvaPartition
import Bongos.Mm.SlabFrames
import Bongos.Mm.Vmalloc

/-!
# The calls that `vmalloc` and the device mappings make

One lemma for each allocator's call on the common state: what it returns, and what it changes. The
page tables are seen through `kvaMap`, the extents through the reservations that callers hold
(`KvaReserved`), and the slab cache of the area records through the records that callers hold.
-/

namespace Bongos.Mm

open Arch FallibleState RangeMap List

/-! ## Reservations -/

/-- Every free extent starts and ends at a page. -/
def KvaAligned (st : KvaState) : Prop :=
  ∀ e ∈ st.free, e.start % KVA_PAGE_SIZE = 0 ∧ e.end % KVA_PAGE_SIZE = 0

section Aligned

variable {st st' : KvaState} {s t size va : ℕ} {left right free : List KvaExtent}

/-- A range of pages between extents of pages. -/
theorem ExtentJoin.aligned (h : ExtentJoin s t left right free) (hs : s % KVA_PAGE_SIZE = 0)
    (ht : t % KVA_PAGE_SIZE = 0)
    (hall : ∀ e ∈ left ++ right, e.start % KVA_PAGE_SIZE = 0 ∧ e.end % KVA_PAGE_SIZE = 0) :
    ∀ e ∈ free, e.start % KVA_PAGE_SIZE = 0 ∧ e.end % KVA_PAGE_SIZE = 0 := by
  intro x hx
  rcases h.mem hx with hx | ⟨hstart, hend⟩
  · exact hall x hx
  constructor
  · rcases hstart with hstart | ⟨e, he, -, hstart⟩
    · exact hstart ▸ hs
    · exact hstart ▸ (hall e he).1
  · rcases hend with hend | ⟨e, he, -, hend⟩
    · exact hend ▸ ht
    · exact hend ▸ (hall e he).2

theorem kvaAlloc_aligned (hal : KvaAligned st)
    (h : kvaAlloc st size = .ok (va, st')) : va % KVA_PAGE_SIZE = 0 ∧ KvaAligned st' := by
  obtain ⟨-, hpage, -, -, -, -, -, left, e, right, hfree, -, rfl, hfree'⟩ := kvaAlloc_ok h rfl
  have he := hal e (by simp [hfree])
  have hrest : ∀ x ∈ left ++ right, x.start % KVA_PAGE_SIZE = 0 ∧ x.end % KVA_PAGE_SIZE = 0 :=
    fun x hx => hal x (hfree ▸ perm_middle.mem_iff.2 (mem_cons_of_mem _ hx))
  simp only [KVA_PAGE_SIZE, KVA_GUARD_SIZE] at *
  refine ⟨by omega, fun x hx => ?_⟩
  rcases hfree' with ⟨-, hfree'⟩ | ⟨-, hfree'⟩ <;> rw [hfree'] at hx
  · exact hrest x hx
  · rcases mem_cons.1 (perm_middle.mem_iff.1 hx) with rfl | hx
    · simp only [KVA_PAGE_SIZE]
      omega
    · exact hrest x hx

theorem kvaFree_aligned (htable : KvaTable st) (hal : KvaAligned st) (hva : va % KVA_PAGE_SIZE = 0)
    (h : exec (kvaFree va size) st = (.ok ⟨⟩, st')) : KvaAligned st' := by
  obtain ⟨-, hpage, hguard, -, hfreed⟩ := htable.of_kvaFree h
  obtain ⟨left, right, hfree, -, -, hjoin⟩ := hfreed.join
  refine hjoin.aligned ?_ ?_ (hfree ▸ hal)
  all_goals
    simp only [KVA_PAGE_SIZE] at hva ⊢
    omega

end Aligned

/-- The kernel virtual area with the reservations `live`: they and the free extents partition it,
and all of them are ranges of pages. -/
structure KvaReserved (kva : KvaState) (live : List KvaRange) : Prop where
  inv : KvaInv ⟨kva, live⟩
  base_eq : kva.base = VM_KVA_BASE
  end_eq : kva.end = VM_KVA_END
  free_aligned : KvaAligned kva
  live_aligned : ∀ r ∈ live, r.va % KVA_PAGE_SIZE = 0

/-- The number of the first page of a reservation. -/
def KvaRange.page (r : KvaRange) : ℕ := r.va / KVA_PAGE_SIZE

/-- The number of pages of a reservation. -/
def KvaRange.pages (r : KvaRange) : ℕ := r.size / KVA_PAGE_SIZE

/-- The page is one of the reservation's, and not a guard page. -/
def KvaRange.Covers (r : KvaRange) (n : ℕ) : Prop := r.page ≤ n ∧ n < r.page + r.pages

section Reserved

variable {kva kva' : KvaState} {live live' : List KvaRange} {r r' : KvaRange} {n size va : ℕ}

theorem KvaReserved.perm (k : KvaReserved kva live) (h : live.Perm live') :
    KvaReserved kva live' := by
  refine ⟨⟨⟨k.inv.layout.tiling.perm ((h.map _).append_left _), k.inv.layout.separated, ?_⟩,
    k.inv.end_lt, ?_, k.inv.liveCount_lt⟩, k.base_eq, k.end_eq, k.free_aligned, ?_⟩
  · exact fun r hr => k.inv.layout.valid r (h.mem_iff.2 hr)
  · exact k.inv.liveCount_eq.trans h.length_eq
  · exact fun r hr => k.live_aligned r (h.mem_iff.2 hr)

/-- A reservation and its guard pages lie in the area. -/
theorem KvaReserved.inside (k : KvaReserved kva live) (hr : r ∈ live) :
    VM_KVA_BASE + KVA_GUARD_SIZE ≤ r.va ∧ r.va + r.size + KVA_GUARD_SIZE ≤ VM_KVA_END ∧
      r.va = r.page * KVA_PAGE_SIZE ∧ r.size = r.pages * KVA_PAGE_SIZE ∧ r.pages ≠ 0 := by
  obtain ⟨hne, hsize, hva⟩ := k.inv.layout.valid r hr
  have hin := k.inv.layout.tiling.inside
    (mem_append_right _ (mem_map_of_mem hr))
  have hal := k.live_aligned r hr
  have hbase := k.base_eq
  have hend := k.end_eq
  simp only [KvaRange.piece, hbase, hend, KVA_GUARD_SIZE] at hin
  simp only [KVA_PAGE_SIZE, KVA_GUARD_SIZE] at hsize hva hal
  generalize VM_KVA_BASE = b at hin ⊢
  simp only [KvaRange.page, KvaRange.pages, KVA_PAGE_SIZE, KVA_GUARD_SIZE]
  omega

/-- A range of pages of the area passes the check of `vmm.c`. -/
theorem vmmRangeInKva_pages {p k : ℕ} (hk : k ≠ 0) (h1 : VM_KVA_BASE ≤ p * KVA_PAGE_SIZE)
    (h2 : p * KVA_PAGE_SIZE + k * KVA_PAGE_SIZE ≤ VM_KVA_END) :
    vmmRangeInKva (p * KVA_PAGE_SIZE) (k * KVA_PAGE_SIZE) = true := by
  have hend : VM_KVA_END < 2^64 := by decide
  have hsize : k * KVA_PAGE_SIZE ≠ 0 := Nat.mul_ne_zero hk (by decide)
  unfold vmmRangeInKva
  rw [if_neg (by simp [hsize])]
  rw [Nat.mod_eq_of_lt (by omega), if_neg (by omega)]
  simp only [Bool.and_eq_true, decide_eq_true_eq]
  exact ⟨h1, h2⟩

section

variable (k : KvaReserved kva live)

include k

theorem KvaReserved.rangeInKva (hr : r ∈ live) : vmmRangeInKva r.va r.size = true := by
  obtain ⟨h1, h2, h3, h4, h5⟩ := k.inside hr
  rw [h3, h4] at h2 ⊢
  exact vmmRangeInKva_pages h5 (by omega) (by omega)

/-- The pages of a reservation, and its guard pages, are pages of the area. -/
theorem KvaReserved.kvaPage (hr : r ∈ live) (h1 : r.page ≤ n + 1)
    (h2 : n ≤ r.page + r.pages) : KvaPage n := by
  obtain ⟨h3, h4, h5, h6, -⟩ := k.inside hr
  simp only [KVA_PAGE_SIZE, KVA_GUARD_SIZE, VM_KVA_BASE, VM_KVA_END] at h3 h4 h5 h6
  simp only [KvaPage, size_4k, VM_KVA_BASE, VM_KVA_END]
  omega

/-- A page of a reservation is neither a page nor a guard page of another one. -/
theorem KvaReserved.eq_of_covers (hr : r ∈ live) (hr' : r' ∈ live)
    (h1 : r.page ≤ n + 1) (h2 : n ≤ r.page + r.pages) (h' : r'.Covers n) : r' = r := by
  by_contra hne
  have hapart : live.Pairwise fun a b => Piece.Apart a.piece b.piece :=
    pairwise_map.1 (pairwise_append.1 k.inv.layout.tiling.apart).2.1
  have happ := hapart.forall hr hr' (Ne.symm hne)
  obtain ⟨h3, -, h4, h5, -⟩ := k.inside hr
  obtain ⟨h6, -, h7, h8, -⟩ := k.inside hr'
  obtain ⟨h9, h10⟩ := h'
  simp only [Piece.Apart, KvaRange.piece, KVA_PAGE_SIZE, KVA_GUARD_SIZE] at *
  omega

theorem KvaReserved.alloc (hsize : size < 2^64)
    (h : kvaAlloc kva size = .ok (va, kva')) : KvaReserved kva' (⟨va, size⟩ :: live) := by
  obtain ⟨inv, hbase, hend⟩ := kvaAlloc_spec k.inv hsize h
  obtain ⟨hva, hal⟩ := kvaAlloc_aligned k.free_aligned h
  exact ⟨inv, hbase.trans k.base_eq, hend.trans k.end_eq, hal,
    forall_mem_cons.2 ⟨hva, k.live_aligned⟩⟩

theorem KvaReserved.free (hr : r ∈ live) :
    ∃ kva', exec (kvaFree r.va r.size) kva = (.ok ⟨⟩, kva') ∧ KvaReserved kva' (live.erase r) := by
  obtain ⟨kva', h, inv, hbase, hend⟩ := kvaFree_spec k.inv hr
  refine ⟨kva', h, inv, hbase.trans k.base_eq, hend.trans k.end_eq,
    kvaFree_aligned k.inv.table k.free_aligned (k.live_aligned r hr) h, fun r' hr' => ?_⟩
  exact k.live_aligned r' (mem_of_mem_erase hr')

end

theorem KvaReserved.init (st : KvaState) :
    KvaReserved (kvaStateInit st VM_KVA_BASE VM_KVA_END) [] := by
  refine ⟨.init st (by decide) (by decide), rfl, rfl, fun e he => ?_, by simp⟩
  obtain ⟨k, hk, rfl⟩ := KvaState.mem_free.1 he
  obtain rfl : k = 0 := Nat.lt_one_iff.1 hk
  simp only [kvaStateInit, Function.update_self]
  decide

/-- The address is in the area and in no free extent. -/
def KvaState.Reserved (kva : KvaState) (x : ℕ) : Prop :=
  kva.base ≤ x ∧ x < kva.end ∧ ∀ e ∈ kva.free, ¬ (e.start ≤ x ∧ x < e.end)

/-- The address is in the reservation or in one of its guard pages. -/
def KvaRange.Holds (r : KvaRange) (x : ℕ) : Prop := r.piece.1 ≤ x ∧ x < r.piece.2

/-- What the free extents leave is what the reservations hold. -/
theorem KvaReserved.reserved_iff (k : KvaReserved kva live) {x : ℕ} :
    kva.Reserved x ↔ ∃ r ∈ live, r.Holds x := by
  have tiling := k.inv.layout.tiling
  have hapart := (pairwise_append.1 tiling.apart).2.2
  constructor
  · rintro ⟨hbase, hend, hfree⟩
    obtain ⟨p, hp, hx⟩ := (tiling.cover x).2 ⟨hbase, hend⟩
    rcases mem_append.1 hp with hp | hp
    · obtain ⟨e, he, rfl⟩ := mem_map.1 hp
      exact absurd hx (hfree e he)
    · obtain ⟨r, hr, rfl⟩ := mem_map.1 hp
      exact ⟨r, hr, hx⟩
  · rintro ⟨r, hr, hx⟩
    obtain ⟨hbase, hend⟩ := (tiling.cover x).1 ⟨r.piece, mem_append_right _ (mem_map_of_mem hr), hx⟩
    refine ⟨hbase, hend, fun e he hxe => ?_⟩
    have := hapart e.piece (mem_map_of_mem he) r.piece (mem_map_of_mem hr)
    simp only [Piece.Apart, KvaRange.Holds, KvaExtent.piece] at *
    omega

/-- One reservation more, and the others hold what they held. -/
theorem KvaReserved.reserved_cons (k : KvaReserved kva (r :: live)) (k' : KvaReserved kva' live)
    {x : ℕ} : (kva.Reserved x ↔ kva'.Reserved x ∨ r.Holds x) ∧ ¬ (kva'.Reserved x ∧ r.Holds x) := by
  have hapart := (pairwise_append.1 k.inv.layout.tiling.apart).2.1
  rw [map_cons, pairwise_cons] at hapart
  refine ⟨?_, ?_⟩
  · rw [k.reserved_iff, k'.reserved_iff, exists_mem_cons_iff]
    exact or_comm
  · rintro ⟨h', h⟩
    obtain ⟨r', hr', hx⟩ := k'.reserved_iff.1 h'
    have := hapart.1 r'.piece (mem_map_of_mem hr')
    simp only [Piece.Apart, KvaRange.Holds] at *
    omega

end Reserved

variable {s s' : VmState} {ans : VmAnswers} {live : List KvaRange} {r : KvaRange} {va size : ℕ}

section

variable (hact : s.paging.tablesActive = true) (k : KvaReserved s.kva live)

include hact k

theorem exec_vmmKvaAlloc (hsize : size < 2^64) :
    (∃ st, exec (vmmKvaAlloc size) s = (.ok (.error st), s)) ∨
      ∃ va kva, exec (vmmKvaAlloc size) s = (.ok (.ok va), { s with kva := kva }) ∧
        KvaReserved kva (⟨va, size⟩ :: live) := by
  unfold vmmKvaAlloc
  rw [exec_get_bind, hact, Bool.not_true, if_neg Bool.false_ne_true]
  cases h : kvaAlloc s.kva size with
  | error st => exact .inl ⟨st, rfl⟩
  | ok r => exact .inr ⟨r.1, r.2, rfl, k.alloc hsize h⟩

theorem exec_vmmKvaFree (hr : r ∈ live) :
    ∃ kva, exec (vmmKvaFree r.va r.size) s = (.ok ⟨⟩, { s with kva := kva }) ∧
      KvaReserved kva (live.erase r) := by
  obtain ⟨kva, h, k'⟩ := k.free hr
  refine ⟨kva, ?_, k'⟩
  unfold vmmKvaFree
  rw [exec_get_bind, hact, k.rangeInKva hr, h]
  rfl

end

/-! ## Page tables -/

variable {n p k : ℕ}

theorem exec_lookupKernel (i : KernelInv s.paging) (hn : KvaPage n) :
    exec (lookupKernel (n * KVA_PAGE_SIZE)) s = (.ok (match kvaMap s.paging n with
      | none => .error .errNotFound
      | some m => .ok (m.pa, m.flags)), s) := by
  have h := vmmLookupKernel_spec i.paging i.active (i.nx n) hn
  rw [show X86_PTE_SIZE_4K = KVA_PAGE_SIZE by decide] at h
  unfold lookupKernel onPaging
  rw [exec_get_bind]
  dsimp only
  rw [h]
  rfl

/-- `vmmUnmapKernel` on a range of pages that are mapped. -/
theorem exec_unmapKernel (i : KernelInv s.paging) (hk : k ≠ 0) (hkva : ∀ j < k, KvaPage (p + j))
    (hmapped : ∀ j < k, kvaMap s.paging (p + j) ≠ none) :
    ∃ paging, exec (unmapKernel (p * KVA_PAGE_SIZE) (k * KVA_PAGE_SIZE)) s =
        (.ok .ok, { s with paging := paging }) ∧ KernelInv paging ∧
      kvaMap paging = remove (kvaMap s.paging) p k := by
  have hfirst := hkva 0 (by omega)
  have hlast := hkva (k - 1) (by omega)
  simp only [KvaPage, size_4k, VM_KVA_BASE, VM_KVA_END] at hfirst hlast
  have hva : p * KVA_PAGE_SIZE < 2^64 := by rw [KVA_PAGE_SIZE]; omega
  have hsize : k * KVA_PAGE_SIZE < 2^64 := by rw [KVA_PAGE_SIZE]; omega
  have hrange : vmmRangeInKva (p * KVA_PAGE_SIZE) (k * KVA_PAGE_SIZE) = true := by
    refine vmmRangeInKva_pages hk ?_ ?_
    · rw [KVA_PAGE_SIZE, VM_KVA_BASE]
      omega
    · rw [KVA_PAGE_SIZE, VM_KVA_END]
      omega
  obtain ⟨st, paging, h, hcases⟩ := i.unmapRefines (.ofNat 64 (p * KVA_PAGE_SIZE))
    (.ofNat 64 (k * KVA_PAGE_SIZE))
  have i' := i.step (.unmap h)
  rw [BitVec.toNat_ofNat, BitVec.toNat_ofNat, Nat.mod_eq_of_lt hva, Nat.mod_eq_of_lt hsize]
    at h hcases
  have hdiv : p * KVA_PAGE_SIZE / X86_PTE_SIZE_4K = p ∧
      k * KVA_PAGE_SIZE / X86_PTE_SIZE_4K = k := by
    rw [size_4k, KVA_PAGE_SIZE]
    omega
  rw [UnmapRefines, hdiv.1, hdiv.2] at hcases
  rcases hcases with ⟨hf, -⟩ | ⟨-, ⟨j, hj, hnone⟩, -⟩ | ⟨-, -, rfl, hmap⟩
  · rw [hrange] at hf
    cases hf
  · exact absurd hnone (hmapped j hj)
  · refine ⟨paging, ?_, i', hmap⟩
    unfold unmapKernel onPaging
    rw [exec_get_bind]
    dsimp only
    rw [h]
    rfl

/-- `vmmMapKernel` on the whole state. -/
theorem exec_mapKernel {pa : ℕ} (flags : VmmFlags) (i : KernelInv s.paging)
    (hf : FreshTables (ans.tables s)) (hva : va < 2^64) (hpa : pa < 2^64) (hsize : size < 2^64) :
    ∃ st paging, exec (mapKernel ans va pa size flags) s = (.ok st, { s with paging := paging }) ∧
      KernelInv paging ∧ ((st ≠ .ok ∧ kvaMap paging = kvaMap s.paging) ∨
        (st = .ok ∧ (∀ j < size / KVA_PAGE_SIZE, kvaMap s.paging (va / KVA_PAGE_SIZE + j) = none) ∧
          kvaMap paging = extend (kvaMap s.paging) (va / KVA_PAGE_SIZE) (size / KVA_PAGE_SIZE)
            fun j => requested (pa + j * KVA_PAGE_SIZE) flags)) := by
  obtain ⟨st, paging, h, hcases⟩ := i.mapRefines hf (.ofNat 64 va) (.ofNat 64 pa) (.ofNat 64 size)
    flags
  have i' := i.step (.map hf h)
  rw [BitVec.toNat_ofNat, BitVec.toNat_ofNat, BitVec.toNat_ofNat, Nat.mod_eq_of_lt hva,
    Nat.mod_eq_of_lt hpa, Nat.mod_eq_of_lt hsize] at h hcases
  refine ⟨st, paging, ?_, i', ?_⟩
  · unfold mapKernel onPaging
    rw [exec_get_bind, exec_get_bind]
    dsimp only
    rw [h]
    rfl
  · rcases hcases with ⟨hst, hnone, hmap, -⟩ | ⟨hst, -, hmap⟩
    · exact .inr ⟨hst, hnone, hmap⟩
    · exact .inl ⟨hst, hmap⟩

/-! ## Area records -/

variable {held : ℕ → List ℕ}

/-- The answers of the memory manager are fresh: a page table is no table yet, and neither the block
of a slab nor a single frame has a frame that is allocated. -/
structure VmAnswers.Fresh (ans : VmAnswers) : Prop where
  tables : ∀ s, FreshTables (ans.tables s)
  slabs : ∀ s, PmmFresh (ans.slabs s)
  slabs_unallocated : ∀ s, PmmUnallocated (ans.slabs s)
  frames : ∀ s f, ans.frames s = some f → pmmPfnValid s.slab.spans f = true ∧
    (f + 1) * 4096 ≤ BOOTINFO_HHDM_SIZE ∧ ¬ s.slab.Allocated f

theorem exec_areaAlloc (ha : ans.Fresh) (w : SlabWorldInv ⟨s.slab, held⟩)
    (hc : s.slab.inUse s.vmallocAreaCache = true) :
    ∃ r slab, exec (areaAlloc ans) s = (.ok r, { s with slab := slab }) ∧
      SlabWorldInv ⟨slab, Function.update held s.vmallocAreaCache
        (r.toList ++ held s.vmallocAreaCache)⟩ ∧
      slab.inUse s.vmallocAreaCache = true ∧ FramesGrow s.slab slab ∧
      (r ≠ none → slab.HasRoom s.vmallocAreaCache) := by
  obtain ⟨r, slab, h⟩ := slabAlloc_returns w hc (ans.slabs s)
  obtain ⟨-, -, w', -⟩ := slabAlloc_spec w (ha.slabs s) h
  obtain ⟨hgrow, hroom⟩ := slabAlloc_framesGrow (ha.slabs s) (ha.slabs_unallocated s) w h
  refine ⟨r, slab, ?_, w', hgrow.inUse_eq ▸ hc, hgrow, hroom⟩
  unfold areaAlloc
  rw [exec_get_bind, h]
  rfl

theorem exec_areaFree {area : ℕ} (w : SlabWorldInv ⟨s.slab, held⟩)
    (hp : area ∈ held s.vmallocAreaCache) :
    ∃ slab, exec (areaFree area) s = (.ok ⟨⟩, { s with slab := slab }) ∧
      SlabWorldInv ⟨slab, Function.update held s.vmallocAreaCache
        ((held s.vmallocAreaCache).erase area)⟩ ∧
      slab.inUse s.vmallocAreaCache = true ∧ FramesShrink s.slab slab ∧
      (s.slab.HasRoom s.vmallocAreaCache → slab.pages = s.slab.pages) := by
  obtain ⟨slab, h, w', -⟩ := slabFree_spec w hp
  obtain ⟨hshrink, hroom⟩ := slabFree_framesShrink w hp h
  refine ⟨slab, ?_, w', hshrink.inUse_eq ▸ (w.held_slot hp).1, hshrink, hroom⟩
  unfold areaFree
  rw [exec_get_bind, h]
  rfl

end Bongos.Mm
