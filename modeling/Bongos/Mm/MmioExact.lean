import Bongos.LabelledRuns
import Bongos.Mm.VmWorld

/-!
# `vmmUnmapMmio` recognises exactly the device mappings

`vmmUnmapMmio` keeps no record of device mappings. It accepts a range when its pages are mapped as
device memory is and the page on each side of it is not mapped. In every reachable state this holds
of the live device mappings and of nothing else: a part of a mapping has a mapped page on one side,
a range over two mappings contains a guard page, and areas of `vmalloc` have another memory type.
-/

namespace Bongos.Mm

open Arch FallibleState RangeMap List

variable {w w₀ : VmWorld} {r : KvaRange} {n va size : ℕ}

/-- The pages that the bytes from `va` on touch. -/
def touchedPages (va size : ℕ) : Set ℕ := {n | ∃ x, va ≤ x ∧ x < va + size ∧ x / KVA_PAGE_SIZE = n}

theorem mem_touchedPages (hsize : size ≠ 0) :
    n ∈ touchedPages va size ↔ va / KVA_PAGE_SIZE ≤ n ∧ n ≤ (va + size - 1) / KVA_PAGE_SIZE := by
  rw [touchedPages, Set.mem_ofPred_eq, KVA_PAGE_SIZE]
  constructor
  · rintro ⟨x, h1, h2, rfl⟩
    omega
  · rintro ⟨h1, h2⟩
    exact ⟨max va (n * 4096), by omega, by omega, by omega⟩

/-- The pages of a device mapping. -/
def mappingPages (r : KvaRange) : Set ℕ := {n | r.Covers n}

/-- Bytes that touch exactly the pages of a mapping round to its range. -/
theorem mmioRange_of_touched {kva : KvaState} {live : List KvaRange} (k : KvaReserved kva live)
    (hr : r ∈ live) (h : touchedPages va size = mappingPages r) :
    MmioBytes va size ∧ mmioRange va size = r := by
  obtain ⟨-, hhigh, hva, hsize, hne⟩ := k.inside hr
  have hsize0 : size ≠ 0 := by
    rintro rfl
    have hmem : r.page ∈ touchedPages va 0 := by
      rw [h]
      exact ⟨le_rfl, by omega⟩
    obtain ⟨x, h1, h2, -⟩ := hmem
    omega
  have hiff : ∀ n, (va / KVA_PAGE_SIZE ≤ n ∧ n ≤ (va + size - 1) / KVA_PAGE_SIZE) ↔
      r.page ≤ n ∧ n < r.page + r.pages := fun n => by
    rw [← mem_touchedPages hsize0, h]
    rfl
  have hle : va / KVA_PAGE_SIZE ≤ (va + size - 1) / KVA_PAGE_SIZE := Nat.div_le_div_right (by omega)
  have hfirst := (hiff (va / KVA_PAGE_SIZE)).1 ⟨le_rfl, hle⟩
  have hlast := (hiff ((va + size - 1) / KVA_PAGE_SIZE)).1 ⟨hle, le_rfl⟩
  have hfirst' := (hiff r.page).2 ⟨le_rfl, by omega⟩
  have hlast' := (hiff (r.page + r.pages - 1)).2 ⟨by omega, by omega⟩
  have hbytes : MmioBytes va size := by
    refine ⟨hsize0, ?_⟩
    have hend : VM_KVA_END + KVA_PAGE_SIZE ≤ 2^64 := by decide
    simp only [KVA_PAGE_SIZE, KVA_GUARD_SIZE] at *
    omega
  refine ⟨hbytes, (KvaRange.eq_of_pages k hr ?_ ?_ ?_ ?_).symm⟩
  · rw [hbytes.va_eq, hbytes.page_eq]
  · rw [hbytes.size_eq, hbytes.pages_eq]
  · rw [hbytes.page_eq]
    omega
  · rw [hbytes.pages_eq]
    omega

/-- A device mapping has the shape that `vmmUnmapMmio` looks for. -/
theorem VmInv.mmio_shape (i : VmInv w) (hr : r ∈ w.mmio) : MmioShape w.st.paging r := by
  have hr' : r ∈ w.ranges := mem_append_right _ hr
  obtain ⟨hlow, hhigh, -, -, -⟩ := i.kva.inside hr'
  exact ⟨hlow, hhigh, (i.guards hr').1, (i.guards hr').2, fun j hj =>
    i.mmio r hr _ ⟨Nat.le_add_right _ _, by omega⟩⟩

theorem MmioBytes.touchedPages_eq (h : MmioBytes va size) :
    touchedPages va size = mappingPages (mmioRange va size) := by
  ext n
  show n ∈ touchedPages va size ↔ (mmioRange va size).Covers n
  rw [mem_touchedPages h.size_ne, KvaRange.Covers, h.page_eq, h.pages_eq]
  omega

/-- The mapping and its reservation are gone, and everything else is as it was. -/
structure MmioGone (w : VmWorld) (st : VmState) (r : KvaRange) : Prop where
  map_eq : kvaMap st.paging = remove (kvaMap w.st.paging) r.page r.pages
  reserved : ∀ x, st.kva.Reserved x ↔ w.st.kva.Reserved x ∧ ¬ r.Holds x
  ranges : KvaReserved st.kva (w.ranges.erase r)
  same : st = { w.st with paging := st.paging, kva := st.kva }
  inv : VmInv { w with st := st, mmio := w.mmio.erase r }

/-- A range that passes the checks is that of a device mapping, and goes. -/
theorem VmInv.unmapMmio_gone (i : VmInv w) (hva : va < 2^64) (hsize : size < 2^64)
    (hbytes : MmioBytes va size) (hshape : MmioShape w.st.paging (mmioRange va size)) :
    mmioRange va size ∈ w.mmio ∧ ∃ st, exec (vmmUnmapMmio va size) w.st = (.ok ⟨⟩, st) ∧
      MmioGone w st (mmioRange va size) := by
  have hr : mmioRange va size ∈ w.mmio := i.mmio_of_shape hbytes hshape
  have hr' : mmioRange va size ∈ w.ranges := mem_append_right _ hr
  obtain ⟨st, h, c, hmap⟩ := exec_vmmUnmapMmio i.kernel i.kva hr' hva hsize hbytes hshape
  refine ⟨hr, st, h, hmap, fun x => ?_, c.kva, c.same, i.of_unmapMmio hr c hmap⟩
  obtain ⟨hiff, hnot⟩ := (i.kva.perm (perm_cons_erase hr')).reserved_cons c.kva
  exact ⟨fun h => ⟨hiff.2 (.inl h), fun h' => hnot ⟨h, h'⟩⟩, fun ⟨h, hr⟩ =>
    (hiff.1 h).resolve_right hr⟩

/-- **`vmmUnmapMmio` recognises exactly the live device mappings**: in every state that is reached
by calls of `vmmMapMmio`, `vmmUnmapMmio`, `vmalloc`, and `vfree`, and for all arguments, it returns
if and only if the pages that the range touches are those of a device mapping. Then that mapping and
its reservation are gone, and no other. Otherwise it reports a bug and has changed nothing. -/
theorem vmmUnmapMmio_exact (h₀ : VmBoot w₀) (hrun : Run VmStep w₀ w) (va size : BitVec 64) :
    ((∃ st, exec (vmmUnmapMmio va.toNat size.toNat) w.st = (.ok ⟨⟩, st)) ↔
      ∃ r ∈ w.mmio, touchedPages va.toNat size.toNat = mappingPages r) ∧
    (∀ st, exec (vmmUnmapMmio va.toNat size.toNat) w.st = (.ok ⟨⟩, st) →
      ∃ r ∈ w.mmio, touchedPages va.toNat size.toNat = mappingPages r ∧ MmioGone w st r) ∧
    ∀ bug st, exec (vmmUnmapMmio va.toNat size.toNat) w.st = (.error bug, st) → st = w.st := by
  have i := h₀.run hrun
  have hreturns : (∃ r ∈ w.mmio, touchedPages va.toNat size.toNat = mappingPages r) →
      ∃ st, exec (vmmUnmapMmio va.toNat size.toNat) w.st = (.ok ⟨⟩, st) := by
    rintro ⟨r, hr, htouched⟩
    obtain ⟨hbytes, rfl⟩ := mmioRange_of_touched i.kva (mem_append_right _ hr) htouched
    obtain ⟨-, st, h, -⟩ := i.unmapMmio_gone va.isLt size.isLt hbytes (i.mmio_shape hr)
    exact ⟨st, h⟩
  rcases vmmUnmapMmio_checks i.kernel va.isLt size.isLt with ⟨hbytes, hshape, -⟩ | ⟨-, bug, h⟩
  · obtain ⟨hr, st, h, hgone⟩ := i.unmapMmio_gone va.isLt size.isLt hbytes hshape
    refine ⟨⟨fun _ => ⟨_, hr, hbytes.touchedPages_eq⟩, hreturns⟩, fun st' h' => ?_,
      fun bug st' h' => ?_⟩
    · obtain ⟨-, rfl⟩ := Prod.mk.inj (h.symm.trans h')
      exact ⟨_, hr, hbytes.touchedPages_eq, hgone⟩
    · rw [h] at h'
      cases h'
  · refine ⟨⟨fun ⟨st, h'⟩ => ?_, hreturns⟩, fun st' h' => ?_, fun bug st' h' => ?_⟩
    · rw [h] at h'
      cases h'
    · rw [h] at h'
      cases h'
    · obtain ⟨-, rfl⟩ := Prod.mk.inj (h.symm.trans h')
      rfl

/-- After the boot, one page of device memory is mapped. -/
def oneDevicePage : Except VmBug (Except Status ℕ) × VmState :=
  exec (vmmMapMmio noAnswers (0x300000 : BitVec 64).toNat (0x1000 : BitVec 64).toNat) bootVm.st

theorem oneDevicePage_fst : oneDevicePage.1 = .ok (.ok (VM_KVA_BASE + KVA_GUARD_SIZE)) := by
  decide +kernel

/-- That page is recognised, and the range of two pages that begins with it is not. -/
theorem vmmUnmapMmio_exact_onePage :
    (∃ st, exec (vmmUnmapMmio (BitVec.ofNat 64 (VM_KVA_BASE + KVA_GUARD_SIZE)).toNat
      (0x1000 : BitVec 64).toNat) oneDevicePage.2 = (.ok ⟨⟩, st)) ∧
    ¬ ∃ st, exec (vmmUnmapMmio (BitVec.ofNat 64 (VM_KVA_BASE + KVA_GUARD_SIZE)).toNat
      (0x2000 : BitVec 64).toNat) oneDevicePage.2 = (.ok ⟨⟩, st) := by
  set w : VmWorld := { bootVm with
    st := oneDevicePage.2
    mmio := [mmioRange (VM_KVA_BASE + KVA_GUARD_SIZE) (0x1000 : BitVec 64).toNat] } with hw
  have hrun : Run VmStep bootVm w :=
    .single (.mapMmio noAnswers_fresh (Prod.ext oneDevicePage_fst rfl))
  have hbytes : MmioBytes (VM_KVA_BASE + KVA_GUARD_SIZE) (0x1000 : BitVec 64).toNat :=
    ⟨by decide, by decide⟩
  constructor
  · refine (vmmUnmapMmio_exact bootVm_boot hrun _ _).1.2 ⟨_, mem_singleton_self _, ?_⟩
    exact hbytes.touchedPages_eq
  · rw [(vmmUnmapMmio_exact bootVm_boot hrun _ _).1]
    rintro ⟨r, hr, h⟩
    -- The second page would have to be a page of the mapping.
    obtain rfl := mem_singleton.1 hr
    have hmem : (VM_KVA_BASE + KVA_GUARD_SIZE) / KVA_PAGE_SIZE + 1 ∈
        touchedPages (BitVec.ofNat 64 (VM_KVA_BASE + KVA_GUARD_SIZE)).toNat
          (0x2000 : BitVec 64).toNat := by
      exact ⟨VM_KVA_BASE + KVA_GUARD_SIZE + 0x1000, by decide, by decide, by decide⟩
    rw [h] at hmem
    have hlt := hmem.2
    revert hlt
    decide

/-- The free extents are the only ones for these reservations. -/
theorem KvaReserved.free_unique {kva kva' : KvaState} {live : List KvaRange}
    (k : KvaReserved kva live) (k' : KvaReserved kva' live) : kva.free = kva'.free := by
  let run (e : KvaExtent) : LabelledRun Unit := ⟨e.start, e.end, ()⟩
  have canonical {kva : KvaState} (k : KvaReserved kva live) : Canonical (kva.free.map run) :=
    ⟨forall_mem_map.2 k.inv.partition.nonempty, pairwise_map.2 (k.inv.partition.sorted.imp
      fun hlt => ⟨hlt.le, fun heq => absurd heq hlt.ne⟩)⟩
  -- The free addresses are those of the area in no reservation.
  have covered {kva : KvaState} (k : KvaReserved kva live) (x : ℕ) :
      (∃ e ∈ kva.free, e.start ≤ x ∧ x < e.end) ↔
        (VM_KVA_BASE ≤ x ∧ x < VM_KVA_END) ∧ ¬ ∃ r ∈ live, r.Holds x := by
    have hin := k.inv.partition.inside
    dsimp only at hin
    rw [← k.reserved_iff, KvaState.Reserved, ← k.base_eq, ← k.end_eq]
    grind
  have hinj : Function.Injective run := fun e f h => by cases e; cases f; cases h; rfl
  refine map_injective_iff.2 hinj ((canonical k).ext (canonical k') fun x _ => ?_)
  simpa [LabelAt, run] using (covered k x).trans (covered k' x).symm

/-- **The address allocator keeps no history.** Two runs of device mappings, `vmalloc`, and `vfree`
that end with the same reservations end with the same free extents. -/
theorem vm_historyFree {w' w₀' : VmWorld} (h₀ : VmBoot w₀) (hrun : Run VmStep w₀ w)
    (h₀' : VmBoot w₀') (hrun' : Run VmStep w₀' w') (h : w.ranges.Perm w'.ranges) :
    w.st.kva.free = w'.st.kva.free :=
  ((h₀.run hrun).kva.perm h).free_unique (h₀'.run hrun').kva

/-- A device page that was mapped and unmapped leaves no trace. -/
theorem vm_historyFree_onePage : ∃ w, Run VmStep bootVm w ∧ w.mmio ≠ [] ∧ ∃ w', VmStep w w' ∧
    w'.st.kva.free = bootVm.st.kva.free := by
  have hrun : Run VmStep bootVm _ :=
    .single (.mapMmio noAnswers_fresh (Prod.ext oneDevicePage_fst rfl))
  have i := bootVm_boot.run hrun
  obtain ⟨-, st, h, -⟩ := i.unmapMmio_gone (BitVec.ofNat 64 (VM_KVA_BASE + KVA_GUARD_SIZE)).isLt
    (0x1000 : BitVec 64).isLt ⟨by decide, by decide⟩ (i.mmio_shape mem_cons_self)
  refine ⟨_, hrun, cons_ne_nil _ _, _, .unmapMmio h, ?_⟩
  exact vm_historyFree bootVm_boot (hrun.tail (.unmapMmio h)) bootVm_boot .refl (by rfl)

end Bongos.Mm
