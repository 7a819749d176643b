import Bongos.Mm.VmCalls

/-!
# Mapping and unmapping device memory

The calls `vmmMapMmio` and `vmmUnmapMmio` on a state whose reservations are known. `vmmUnmapMmio`
keeps no record of the mappings. It looks at the pages of the range and at one page on each side,
and these checks change nothing.
-/

namespace Bongos.Mm

open Arch FallibleState RangeMap List

variable {s s' : VmState} {ans : VmAnswers} {live : List KvaRange} {a b k n va pa size : ℕ}

/-! ## Ranges of pages -/

theorem pageFloor_eq (h : a < 2^64) : pageFloor a = a / KVA_PAGE_SIZE * KVA_PAGE_SIZE :=
  land_two_pow_sub (w := 64) (k := 12) (by decide) h

/-- The pages that a range of bytes touches. -/
def mmioRange (va size : ℕ) : KvaRange :=
  ⟨pageFloor va, pageFloor (va + size + KVA_PAGE_SIZE - 1) - pageFloor va⟩

/-- The range of bytes is not empty, and its last page ends below the end of the address space. -/
structure MmioBytes (va size : ℕ) : Prop where
  size_ne : size ≠ 0
  end_le : va + size ≤ 2^64 - KVA_PAGE_SIZE

/-- The first check of both calls. -/
theorem mmioBytes_iff (hva : va < 2^64) (hsize : size < 2^64) :
    MmioBytes va size ↔ ¬ (size = 0 ∨ (va + size) % 2^64 < va ∨
      (va + size) % 2^64 > 2^64 - 1 - (KVA_PAGE_SIZE - 1)) := by
  have hpage : KVA_PAGE_SIZE = 4096 := rfl
  constructor
  · rintro ⟨h1, h2⟩
    omega
  · intro h
    refine ⟨?_, ?_⟩ <;> omega

section

variable (h : MmioBytes va size)

include h

theorem MmioBytes.mod_eq : (va + size) % 2^64 = va + size := by
  have hpage : KVA_PAGE_SIZE = 4096 := rfl
  have := h.end_le
  omega

theorem MmioBytes.va_eq : (mmioRange va size).va = va / KVA_PAGE_SIZE * KVA_PAGE_SIZE := by
  have hpage : KVA_PAGE_SIZE = 4096 := rfl
  have := h.end_le
  exact pageFloor_eq (by omega)

theorem MmioBytes.size_eq :
    (mmioRange va size).size = ((va + size - 1) / KVA_PAGE_SIZE + 1 - va / KVA_PAGE_SIZE) *
      KVA_PAGE_SIZE := by
  have hpage : KVA_PAGE_SIZE = 4096 := rfl
  have := h.end_le
  have := h.size_ne
  show pageFloor (va + size + KVA_PAGE_SIZE - 1) - pageFloor va = _
  rw [pageFloor_eq (by omega), pageFloor_eq (by omega), hpage]
  omega

theorem MmioBytes.page_eq : (mmioRange va size).page = va / KVA_PAGE_SIZE := by
  rw [KvaRange.page, h.va_eq, Nat.mul_div_cancel _ (by decide)]

theorem MmioBytes.pages_eq :
    (mmioRange va size).pages = (va + size - 1) / KVA_PAGE_SIZE + 1 - va / KVA_PAGE_SIZE := by
  rw [KvaRange.pages, h.size_eq, Nat.mul_div_cancel _ (by decide)]

/-- The range of the pages is whole pages. -/
theorem MmioBytes.whole : (mmioRange va size).va = (mmioRange va size).page * KVA_PAGE_SIZE ∧
    (mmioRange va size).size = (mmioRange va size).pages * KVA_PAGE_SIZE := by
  rw [h.page_eq, h.pages_eq]
  exact ⟨h.va_eq, h.size_eq⟩

theorem MmioBytes.pages_ne : (mmioRange va size).pages ≠ 0 := by
  have := h.size_ne
  have hle : va / KVA_PAGE_SIZE ≤ (va + size - 1) / KVA_PAGE_SIZE := Nat.div_le_div_right (by omega)
  rw [h.pages_eq]
  omega

end

/-! ## `vmmMapMmio` -/

/-- What a page of device memory is mapped to. -/
def mmioMapping (pa : ℕ) : KvaMapping := ⟨pa, true, .uc⟩

/-- The mapping has the flags that `vmmUnmapMmio` looks for only if it is writable and uncached. -/
theorem flags_eq_mmio {m : KvaMapping} :
    m.flags = VMM_WRITE ||| VMM_CACHE_UC ↔ m = mmioMapping m.pa := by
  obtain ⟨pa, write, cache⟩ := m
  simp only [mmioMapping, KvaMapping.mk.injEq, true_and]
  show (if write then VMM_WRITE else 0) ||| cache.bits = _ ↔ _
  cases write <;> cases cache <;> decide

/-- The address that stands for a device address is at the same place in its page. -/
theorem mmioRange_shift (h : MmioBytes pa size) (hva : va % KVA_PAGE_SIZE = 0)
    (hend : va + (mmioRange pa size).size ≤ 2^64 - KVA_PAGE_SIZE) :
    mmioRange (va + (pa - pageFloor pa)) size = ⟨va, (mmioRange pa size).size⟩ := by
  have hpage : KVA_PAGE_SIZE = 4096 := rfl
  have hsize := h.size_eq
  have hne := h.size_ne
  have hle := h.end_le
  rw [hpage] at hva hend hsize hle
  have hfloor : pageFloor pa = pa / 4096 * 4096 := pageFloor_eq (by omega)
  set va' := va + (pa - pageFloor pa)
  have hbytes : MmioBytes va' size := by
    refine ⟨hne, ?_⟩
    omega
  have h1 := hbytes.va_eq
  have h2 := hbytes.size_eq
  rw [hpage] at h1 h2
  have h1' : (mmioRange va' size).va = va := by omega
  have h2' : (mmioRange va' size).size = (mmioRange pa size).size := by omega
  calc mmioRange va' size = ⟨(mmioRange va' size).va, (mmioRange va' size).size⟩ := rfl
    _ = ⟨va, (mmioRange pa size).size⟩ := by rw [h1', h2']

/-- A call that changes page tables and reservations only. -/
structure MmioCall (s s' : VmState) (live : List KvaRange) : Prop where
  same : s' = { s with paging := s'.paging, kva := s'.kva }
  kernel : KernelInv s'.paging
  kva : KvaReserved s'.kva live

variable (inv : KernelInv s.paging)

include inv

theorem exec_vmmMapMmio (ha : ans.Fresh) (r : KvaReserved s.kva live)
    (hpa : pa < 2^64) (hsize : size < 2^64) :
    (∃ e s', exec (vmmMapMmio ans pa size) s = (.ok (.error e), s') ∧ MmioCall s s' live ∧
      kvaMap s'.paging = kvaMap s.paging) ∨
    ∃ va s', exec (vmmMapMmio ans pa size) s = (.ok (.ok va), s') ∧
      MmioCall s s' (mmioRange va size :: live) ∧
      kvaMap s'.paging = extend (kvaMap s.paging) (mmioRange va size).page (mmioRange va size).pages
        fun i => mmioMapping (pageFloor pa + i * KVA_PAGE_SIZE) := by
  unfold vmmMapMmio
  rw [exec_get_bind, inv.active, Bool.not_true, if_neg Bool.false_ne_true]
  dsimp only
  by_cases hbytes : MmioBytes pa size
  swap
  · rw [if_pos (not_not.1 (mt (mmioBytes_iff hpa hsize).2 hbytes))]
    exact .inl ⟨_, s, rfl, ⟨rfl, inv, r⟩, rfl⟩
  have hrange : pageFloor (pa + size + KVA_PAGE_SIZE - 1) - pageFloor pa =
      (mmioRange pa size).size :=
    rfl
  rw [if_neg ((mmioBytes_iff hpa hsize).1 hbytes), hbytes.mod_eq, hrange]
  set len := (mmioRange pa size).size with hlen
  have hlt : len < 2^64 := by
    have hle := hbytes.end_le
    have hsize := hbytes.size_eq
    rw [KVA_PAGE_SIZE] at hle hsize
    omega
  rcases exec_vmmKvaAlloc inv.active r hlt with ⟨st, h1⟩ | ⟨va, kva, h1, r1⟩
  · refine .inl ⟨st, s, ?_, ⟨rfl, inv, r⟩, rfl⟩
    rw [exec_bind_of_ok h1]
    rfl
  obtain ⟨-, hhigh, -, -⟩ := r1.inside mem_cons_self
  have hmod : va % KVA_PAGE_SIZE = 0 := r1.live_aligned _ mem_cons_self
  have hend : VM_KVA_END + KVA_PAGE_SIZE < 2^64 := by decide
  dsimp only at hhigh
  have hva : va < 2^64 := by omega
  have hbase : pageFloor pa < 2^64 := by
    rw [pageFloor_eq hpa, KVA_PAGE_SIZE]
    omega
  obtain ⟨st, paging, h2, inv', hcases⟩ := exec_mapKernel (s := { s with kva := kva })
    (VMM_WRITE ||| VMM_CACHE_UC) inv (ha.tables _) hva hbase hlt
  rcases hcases with ⟨hst, hmap⟩ | ⟨rfl, -, hmap⟩
  · -- The pages could not be mapped, and the range goes back.
    obtain ⟨kva', h3, r2⟩ :=
      exec_vmmKvaFree (s := { s with paging := paging, kva := kva }) inv'.active r1 mem_cons_self
    rw [erase_cons_head] at r2
    refine .inl ⟨st, { s with paging := paging, kva := kva' }, ?_, ⟨rfl, inv', r2⟩, hmap⟩
    rw [exec_bind_of_ok h1]
    rw [exec_bind_of_ok h2]
    cases st <;> first
      | exact absurd rfl hst
      | dsimp only
        rw [exec_bind_of_ok h3]
        rfl
  · have hshift := mmioRange_shift hbytes hmod (by omega)
    refine .inr ⟨va + (pa - pageFloor pa), { s with paging := paging, kva := kva }, ?_, ?_, ?_⟩
    · rw [exec_bind_of_ok h1]
      rw [exec_bind_of_ok h2]
      rfl
    · rw [hshift]
      exact ⟨rfl, inv', r1⟩
    · rw [hshift, hmap]
      rfl

/-! ## `vmmUnmapMmio` -/

/-- The page is mapped as device memory is. -/
def MmioPage (paging : Paging) (n : ℕ) : Prop := ∃ pa, kvaMap paging n = some (mmioMapping pa)

/-- What `vmmUnmapMmio` looks for. -/
structure MmioShape (paging : Paging) (r : KvaRange) : Prop where
  low : VM_KVA_BASE + KVA_GUARD_SIZE ≤ r.va
  high : r.va + r.size + KVA_GUARD_SIZE ≤ VM_KVA_END
  before : kvaMap paging (r.page - 1) = none
  after : kvaMap paging (r.page + r.pages) = none
  pages : ∀ j < r.pages, MmioPage paging (r.page + j)

theorem exec_checkMmioGuard (va size : ℕ) (hn : KvaPage n) :
    exec (checkMmioGuard (n * KVA_PAGE_SIZE) va size) s =
      (if kvaMap s.paging n = none then .ok ⟨⟩ else .error (.mmioNotRange va size), s) := by
  have h := exec_lookupKernel inv hn
  unfold checkMmioGuard
  rw [exec_bind_of_ok h]
  cases kvaMap s.paging n with
  | none => rfl
  | some m => rfl

theorem exec_checkMmioPages : ∀ k i, (∀ j < k, KvaPage (b + i + j)) →
      ((∀ j < k, MmioPage s.paging (b + i + j)) ∧
        exec (checkMmioPages (b * KVA_PAGE_SIZE) k (i * KVA_PAGE_SIZE)) s = (.ok ⟨⟩, s)) ∨
      (¬ ∀ j < k, MmioPage s.paging (b + i + j)) ∧
        ∃ bug, exec (checkMmioPages (b * KVA_PAGE_SIZE) k (i * KVA_PAGE_SIZE)) s =
          (.error bug, s) := by
  intro k
  induction k with
  | zero => exact fun i _ => .inl ⟨fun j hj => absurd hj (Nat.not_lt_zero j), rfl⟩
  | succ k ih =>
    intro i hkva
    have hlook := exec_lookupKernel inv (hkva 0 k.succ_pos)
    rw [Nat.add_zero, Nat.add_mul] at hlook
    rw [checkMmioPages, exec_bind_of_ok hlook]
    by_cases hfirst : MmioPage s.paging (b + i)
    swap
    · refine .inr ⟨fun h => hfirst (h 0 k.succ_pos), ?_⟩
      cases hmap : kvaMap s.paging (b + i) with
      | none => exact ⟨_, rfl⟩
      | some m =>
        have hflags : m.flags ≠ VMM_WRITE ||| VMM_CACHE_UC := fun h =>
          hfirst ⟨m.pa, hmap.trans (congrArg some (flags_eq_mmio.1 h))⟩
        dsimp only
        rw [if_neg hflags]
        exact ⟨_, rfl⟩
    obtain ⟨pa, hmap⟩ := hfirst
    have hflags : (mmioMapping pa).flags = VMM_WRITE ||| VMM_CACHE_UC := flags_eq_mmio.2 rfl
    rw [hmap]
    dsimp only
    rw [if_pos hflags]
    have hshift : ∀ j, b + (i + 1) + j = b + i + (j + 1) := fun j => by omega
    have hnext := ih (i + 1) fun j hj => hshift j ▸ hkva (j + 1) (by omega)
    simp only [hshift, Nat.add_mul i 1, Nat.one_mul] at hnext
    rcases hnext with ⟨hall, h⟩ | ⟨hnot, h⟩
    · refine .inl ⟨fun j hj => ?_, h⟩
      rcases j with _ | j
      · exact ⟨pa, hmap⟩
      · exact hall j (by omega)
    · exact .inr ⟨fun hall => hnot fun j hj => hall (j + 1) (by omega), h⟩

/-- The checks of `vmmUnmapMmio` change nothing, and pass exactly when the range has the shape of a
device mapping. -/
theorem vmmUnmapMmio_checks (hva : va < 2^64) (hsize : size < 2^64) :
    (MmioBytes va size ∧ MmioShape s.paging (mmioRange va size) ∧ exec (vmmUnmapMmio va size) s =
        exec (unmapKernel (mmioRange va size).va (mmioRange va size).size >>= fun
          | .ok => vmmKvaFree (mmioRange va size).va (mmioRange va size).size
          | _ => throw (.mmioNotMapping va size)) s) ∨
    ¬ (MmioBytes va size ∧ MmioShape s.paging (mmioRange va size)) ∧
      ∃ bug, exec (vmmUnmapMmio va size) s = (.error bug, s) := by
  unfold vmmUnmapMmio
  dsimp only
  by_cases hbytes : MmioBytes va size
  swap
  · rw [if_pos (not_not.1 (mt (mmioBytes_iff hva hsize).2 hbytes))]
    exact .inr ⟨fun h => hbytes h.1, _, rfl⟩
  have hrange : pageFloor (va + size + KVA_PAGE_SIZE - 1) - pageFloor va =
      (mmioRange va size).size :=
    rfl
  have hbase : pageFloor va = (mmioRange va size).va := rfl
  rw [if_neg ((mmioBytes_iff hva hsize).1 hbytes), hbytes.mod_eq, hrange, hbase]
  obtain ⟨hva', hsize'⟩ := hbytes.whole
  have hne := hbytes.pages_ne
  generalize mmioRange va size = r at *
  have hkva : KVA_PAGE_SIZE = 4096 ∧ KVA_GUARD_SIZE = 4096 := ⟨rfl, rfl⟩
  by_cases hin : VM_KVA_BASE + KVA_GUARD_SIZE ≤ r.va ∧ r.va + r.size + KVA_GUARD_SIZE ≤ VM_KVA_END
  swap
  · have hbase : 0 < VM_KVA_BASE := by decide
    rw [if_pos (by right; omega)]
    exact .inr ⟨fun h => hin ⟨h.2.low, h.2.high⟩, _, rfl⟩
  obtain ⟨hlow, hhigh⟩ := hin
  have hinKva : vmmRangeInKva r.va r.size = true := by
    rw [hva', hsize'] at hhigh ⊢
    exact vmmRangeInKva_pages hne (by omega) (by omega)
  have hguard : r.va - KVA_GUARD_SIZE = (r.page - 1) * KVA_PAGE_SIZE ∧
      r.va + r.size = (r.page + r.pages) * KVA_PAGE_SIZE := by
    rw [hva', hsize', hkva.1, hkva.2]
    omega
  have hpages : ∀ n, r.page ≤ n + 1 → n ≤ r.page + r.pages → KvaPage n := fun n h1 h2 => by
    rw [hva', hkva.1, hkva.2, VM_KVA_BASE] at hlow
    rw [hva', hsize', hkva.1, hkva.2, VM_KVA_END] at hhigh
    simp only [KvaPage, size_4k, VM_KVA_BASE, VM_KVA_END]
    omega
  rw [hinKva, if_neg (by simp only [Bool.not_true, Bool.false_eq_true, false_or]; omega), hguard.1,
    hguard.2]
  have hbefore := exec_checkMmioGuard inv va size (hpages (r.page - 1) (by omega) (by omega))
  have hafter := exec_checkMmioGuard inv va size (hpages (r.page + r.pages) (by omega) le_rfl)
  by_cases h1 : kvaMap s.paging (r.page - 1) = none
  swap
  · rw [if_neg h1] at hbefore
    exact .inr ⟨fun h => h1 h.2.before, _, exec_bind_of_error hbefore⟩
  rw [if_pos h1] at hbefore
  rw [exec_bind_of_ok hbefore]
  by_cases h2 : kvaMap s.paging (r.page + r.pages) = none
  swap
  · rw [if_neg h2] at hafter
    exact .inr ⟨fun h => h2 h.2.after, _, exec_bind_of_error hafter⟩
  rw [if_pos h2] at hafter
  rw [exec_bind_of_ok hafter]
  have hcheck := exec_checkMmioPages (b := r.page) inv r.pages 0 fun j hj =>
    hpages _ (by omega) (by omega)
  rw [Nat.zero_mul, Nat.add_zero, ← hva'] at hcheck
  rcases hcheck with ⟨hall, h3⟩ | ⟨hnot, bug, h3⟩
  · exact .inl ⟨hbytes, ⟨hlow, hhigh, h1, h2, hall⟩, exec_bind_of_ok h3⟩
  · exact .inr ⟨fun h => hnot h.2.pages, bug, exec_bind_of_error h3⟩

/-- `vmmUnmapMmio` of a range that has the shape of a device mapping and is reserved. -/
theorem exec_vmmUnmapMmio (k : KvaReserved s.kva live) (hr : mmioRange va size ∈ live)
    (hva : va < 2^64) (hsize : size < 2^64) (hbytes : MmioBytes va size)
    (hshape : MmioShape s.paging (mmioRange va size)) :
    ∃ s', exec (vmmUnmapMmio va size) s = (.ok ⟨⟩, s') ∧
      MmioCall s s' (live.erase (mmioRange va size)) ∧
      kvaMap s'.paging =
        remove (kvaMap s.paging) (mmioRange va size).page (mmioRange va size).pages := by
  rcases vmmUnmapMmio_checks inv hva hsize with ⟨-, -, h⟩ | ⟨hnot, -⟩
  swap
  · exact absurd ⟨hbytes, hshape⟩ hnot
  obtain ⟨hva', hsize'⟩ := hbytes.whole
  obtain ⟨paging, h1, inv', hmap⟩ := exec_unmapKernel (p := (mmioRange va size).page) inv
    hbytes.pages_ne (fun j hj => k.kvaPage hr (by omega) (by omega))
    (fun j hj => by
      obtain ⟨pa, hpa⟩ := hshape.pages j hj
      rw [hpa]
      exact Option.some_ne_none _)
  rw [← hva', ← hsize'] at h1
  obtain ⟨kva, h2, k'⟩ := exec_vmmKvaFree (s := { s with paging := paging }) inv'.active k hr
  refine ⟨{ s with paging := paging, kva := kva }, ?_, ⟨rfl, inv', k'⟩, hmap⟩
  rw [h, exec_bind_of_ok h1]
  exact h2

end Bongos.Mm
