import Mathlib.Algebra.Group.Nat.Defs
import Mathlib.Data.List.Basic
import Mathlib.Data.List.Pairwise

/-!
# The boot memory map

The regions that the loader hands over (`bootinfo.h`), and `bootMemMapCheck` of `bootinfo.c`, which
the kernel runs on them before it reads them. An accepted map is a sorted list of disjoint
page-aligned regions, none of which wraps past the end of the address space.
-/

namespace Bongos.Core

open BitVec

def BOOTINFO_PAGE_SIZE : BitVec 64 := 4096

/-- `BOOT_MEM_USABLE`, the first `BootMemType`. -/
def BOOT_MEM_USABLE : BitVec 32 := 1

def BOOT_MEM_RESERVED : BitVec 32 := 2

def BOOT_MEM_ACPI_RECLAIM : BitVec 32 := 3

def BOOT_MEM_ACPI_NVS : BitVec 32 := 4

def BOOT_MEM_BAD : BitVec 32 := 5

/-- `BOOT_MEM_LOADER_RECLAIM`: the loader's own memory. -/
def BOOT_MEM_LOADER_RECLAIM : BitVec 32 := 6

def BOOT_MEM_KERNEL : BitVec 32 := 7

def BOOT_MEM_INITRD : BitVec 32 := 8

/-- `BOOT_MEM_FRAMEBUFFER`, the last `BootMemType`. -/
def BOOT_MEM_FRAMEBUFFER : BitVec 32 := 9

/-- `BootMemRegion`. The type is the raw word: the loader may have written any value. -/
structure BootMemRegion where
  base : BitVec 64
  length : BitVec 64
  type : BitVec 32
  reserved : BitVec 32
  deriving DecidableEq

/-- The loop of `bootMemMapCheck`, with the region before the rest; the error is the reason. -/
def bootMemMapCheckFrom : Option BootMemRegion → List BootMemRegion → Except String Unit
  | _, [] => .ok ()
  | prev, r :: rs =>
    if r.length = 0 then .error "a memory region has zero length"
    else if r.base % BOOTINFO_PAGE_SIZE ≠ 0 ∨ r.length % BOOTINFO_PAGE_SIZE ≠ 0 then
      .error "a memory region is not 4 KiB aligned"
    else if r.base + r.length < r.base then .error "a memory region overflows"
    else if r.type < BOOT_MEM_USABLE ∨ r.type > BOOT_MEM_FRAMEBUFFER then
      .error "a memory region has an unknown type"
    else if r.reserved ≠ 0 then .error "a memory region's reserved field is nonzero"
    else if prev.any fun p => r.base < p.base + p.length then
      .error "the memory map is not sorted and non-overlapping"
    else bootMemMapCheckFrom (some r) rs

def bootMemMapCheck (regions : List BootMemRegion) : Except String Unit :=
  bootMemMapCheckFrom none regions

/-! ## Accepted maps -/

/-- What an accepted region is on its own. -/
structure RegionOk (r : BootMemRegion) : Prop where
  length_pos : 0 < r.length.toNat
  base_dvd : 4096 ∣ r.base.toNat
  length_dvd : 4096 ∣ r.length.toNat
  end_lt : r.base.toNat + r.length.toNat < 2^64
  type_ge : 1 ≤ r.type.toNat
  type_le : r.type.toNat ≤ 9
  reserved_eq : r.reserved = 0

/-- The region `a` ends before `b` starts. -/
def RegionBefore (a b : BootMemRegion) : Prop := a.base.toNat + a.length.toNat ≤ b.base.toNat

instance : IsTrans BootMemRegion RegionBefore where
  trans _ _ _ hab hbc := Nat.le_trans hab (Nat.le_trans (Nat.le_add_right _ _) hbc)

/-- An accepted map: every region is in order, and they are sorted and disjoint. -/
structure MemMapOk (regions : List BootMemRegion) : Prop where
  region : ∀ r ∈ regions, RegionOk r
  sorted : regions.Pairwise RegionBefore

/-- A byte is in at most one region of an accepted map. -/
theorem MemMapOk.region_unique {regions : List BootMemRegion} (h : MemMapOk regions)
    {r r' : BootMemRegion} (hr : r ∈ regions) (hr' : r' ∈ regions) {x : ℕ}
    (hx : r.base.toNat ≤ x ∧ x < r.base.toNat + r.length.toNat)
    (hx' : r'.base.toNat ≤ x ∧ x < r'.base.toNat + r'.length.toNat) : r = r' := by
  by_contra hne
  have : Std.Symm fun a b => RegionBefore a b ∨ RegionBefore b a := ⟨fun _ _ hab => hab.symm⟩
  have hapart := (h.sorted.imp (S := fun a b => RegionBefore a b ∨ RegionBefore b a) .inl).forall
    hr hr' hne
  unfold RegionBefore at hapart
  omega

/-- The end of an accepted region, which the source computes in 64 bits. -/
theorem RegionOk.toNat_end {r : BootMemRegion} (h : RegionOk r) :
    (r.base + r.length).toNat = r.base.toNat + r.length.toNat := by
  rw [toNat_add, Nat.mod_eq_of_lt h.end_lt]

/-- The checks on one region pass exactly when it is in order. -/
theorem regionOk_iff (r : BootMemRegion) : RegionOk r ↔ r.length ≠ 0 ∧
    ¬ (r.base % BOOTINFO_PAGE_SIZE ≠ 0 ∨ r.length % BOOTINFO_PAGE_SIZE ≠ 0) ∧
    ¬ r.base + r.length < r.base ∧ ¬ (r.type < BOOT_MEM_USABLE ∨ r.type > BOOT_MEM_FRAMEBUFFER) ∧
    ¬ r.reserved ≠ 0 := by
  simp only [ne_eq, lt_def, gt_iff_lt, ← toNat_inj, toNat_umod,
    toNat_add, BOOTINFO_PAGE_SIZE, BOOT_MEM_USABLE, BOOT_MEM_FRAMEBUFFER,
    ofNat_eq_ofNat, toNat_ofNat, Nat.reducePow, Nat.reduceMod]
  constructor
  · rintro ⟨h1, h2, h3, h4, h5, h6, h7⟩
    rw [h7]
    exact ⟨by omega, by omega, by omega, by omega, by decide⟩
  · rintro ⟨h1, h2, h3, h4, h5⟩
    refine ⟨by omega, by omega, by omega, by omega, by omega, by omega, ?_⟩
    exact eq_of_toNat_eq (by simpa using h5)

/-- The loop accepts exactly the lists of regions in order that continue the region before. -/
theorem bootMemMapCheckFrom_eq_ok {prev : Option BootMemRegion} {rs : List BootMemRegion}
    (hprev : ∀ p ∈ prev, RegionOk p) :
    bootMemMapCheckFrom prev rs = .ok () ↔
      (∀ r ∈ rs, RegionOk r) ∧ (prev.toList ++ rs).IsChain RegionBefore := by
  induction rs generalizing prev with
  | nil => cases prev <;> simp [bootMemMapCheckFrom]
  | cons r rs ih =>
    have hstep : bootMemMapCheckFrom prev (r :: rs) = .ok () ↔
        RegionOk r ∧ (∀ p ∈ prev, RegionBefore p r) ∧ bootMemMapCheckFrom (some r) rs = .ok () := by
      have hlt : (∀ p ∈ prev, RegionBefore p r) ↔
          ¬ (prev.any fun p => r.base < p.base + p.length) = true := by
        cases prev with
        | none => simp
        | some p =>
          simp only [Option.mem_def, Option.some.injEq, forall_eq', RegionBefore, Option.any_some,
            decide_eq_true_eq, lt_def, (hprev p rfl).toNat_end, Nat.not_lt]
      rw [regionOk_iff, hlt, bootMemMapCheckFrom]
      split_ifs <;> simp_all
    rw [hstep]
    constructor
    · rintro ⟨hr, hp, hrest⟩
      obtain ⟨hall, hchain⟩ := (ih fun p hp => Option.some.inj hp ▸ hr).1 hrest
      refine ⟨List.forall_mem_cons.2 ⟨hr, hall⟩, ?_⟩
      cases prev with
      | none => exact hchain
      | some p => exact List.isChain_cons_cons.2 ⟨hp p rfl, hchain⟩
    · rintro ⟨hall, hchain⟩
      obtain ⟨hr, hall⟩ := List.forall_mem_cons.1 hall
      have hsplit : (∀ p ∈ prev, RegionBefore p r) ∧ (r :: rs).IsChain RegionBefore := by
        cases prev with
        | none => exact ⟨fun p hp => (nomatch hp), hchain⟩
        | some p =>
          obtain ⟨hp, hchain⟩ := List.isChain_cons_cons.1 hchain
          exact ⟨fun q hq => Option.some.inj hq ▸ hp, hchain⟩
      exact ⟨hr, hsplit.1, (ih fun p hp => Option.some.inj hp ▸ hr).2 ⟨hall, hsplit.2⟩⟩

/-- `bootMemMapCheck` accepts exactly the maps that are in order. -/
theorem bootMemMapCheck_eq_ok (regions : List BootMemRegion) :
    bootMemMapCheck regions = .ok () ↔ MemMapOk regions := by
  rw [bootMemMapCheck, bootMemMapCheckFrom_eq_ok (by simp)]
  constructor
  · rintro ⟨hall, hchain⟩
    exact ⟨hall, List.isChain_iff_pairwise.1 hchain⟩
  · rintro ⟨hall, hsorted⟩
    exact ⟨hall, hsorted.isChain⟩

end Bongos.Core
