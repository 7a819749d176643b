import Bongos.Core.BootInfo
import Mathlib.Data.List.Pairwise

/-!
# The references of the boot information

`bootInfoCheckRefs` of `bootinfo.c`: everything that `BootInfo` points at has to lie inside one
region of the memory map, of the type that the loader gives such memory. Of the fields of
`BootInfo`, those that the check reads are modelled. The address of `BootInfo` itself and the bytes
behind an address of the direct map are arguments.
-/

namespace Bongos.Core

open BitVec

/-- The most bytes of a command line. -/
def BOOTINFO_CMDLINE_MAX : ℕ := 4096

/-- `sizeof(BootMemRegion)`. -/
def sizeofBootMemRegion : ℕ := 24

/-- `sizeof(BootInfo)`. -/
def sizeofBootInfo : BitVec 64 := 248

/-- The framebuffer. There is none if `phys` is zero. -/
structure BootFramebuffer where
  phys : BitVec 64
  height : BitVec 32
  pitch : BitVec 32
  reserved0 : BitVec 8
  reserved1 : BitVec 8
  deriving DecidableEq

/-- What the loader hands to the kernel. -/
structure BootInfo where
  memMapPhys : BitVec 64
  fb : BootFramebuffer
  kernelPhysBase : BitVec 64
  kernelSize : BitVec 64
  initrdPhys : BitVec 64
  initrdSize : BitVec 64
  cmdlinePhys : BitVec 64
  hhdmBase : BitVec 64
  deriving DecidableEq

variable (regions : List BootMemRegion)

/-- The range lies inside one region of the type. An empty range does. -/
def bootRangeInsideType (base length : BitVec 64) (type : BitVec 32) : Bool :=
  if length = 0 then true
  else if base + length < base then false
  else regions.any fun r => r.type = type ∧ r.base ≤ base ∧ base + length ≤ r.base + r.length

/-- The end of the region of the type that holds the address. -/
def bootFindContainingRegionEnd (base : BitVec 64) (type : BitVec 32) : Option (BitVec 64) :=
  (regions.find? fun r => r.type = type ∧ r.base ≤ base ∧ base < r.base + r.length).map fun r =>
    r.base + r.length

/-- `bootInfoCheckRefs`; the error is the reason. -/
def bootInfoCheckRefs (bi : BootInfo) (biAddr : BitVec 64) (memory : BitVec 64 → BitVec 8)
    (regions : List BootMemRegion) : Except String Unit :=
  let mapBytes := BitVec.ofNat 64 (regions.length * sizeofBootMemRegion)
  if ¬ bootRangeInsideType regions bi.memMapPhys mapBytes BOOT_MEM_LOADER_RECLAIM then
    .error "the memory map array is not inside a LOADER_RECLAIM region"
  else if ¬ bootRangeInsideType regions (biAddr - bi.hhdmBase) sizeofBootInfo
      BOOT_MEM_LOADER_RECLAIM then
    .error "the BootInfo page is not inside a LOADER_RECLAIM region"
  else if bi.cmdlinePhys = 0 then .error "cmdlinePhys is zero"
  else
    match bootFindContainingRegionEnd regions bi.cmdlinePhys BOOT_MEM_LOADER_RECLAIM with
    | none => .error "cmdline is not inside a LOADER_RECLAIM region"
    | some cmdlineRegionEnd =>
      let cmdlineMaxScan := min (cmdlineRegionEnd - bi.cmdlinePhys).toNat BOOTINFO_CMDLINE_MAX
      let foundNul := (List.range cmdlineMaxScan).any fun i =>
        memory (bi.hhdmBase + bi.cmdlinePhys + BitVec.ofNat 64 i) = 0
      if ¬ foundNul then
        .error
          "cmdline is not NUL-terminated within its containing region or BOOTINFO_CMDLINE_MAX bytes"
      else if ¬ bootRangeInsideType regions bi.kernelPhysBase bi.kernelSize BOOT_MEM_KERNEL then
        .error "the kernel image is not inside a KERNEL region"
      else if ¬ regions.any fun r => r.type = BOOT_MEM_USABLE then
        .error "no USABLE region in the memory map"
      else if bi.initrdSize ≠ 0 ∧
          ¬ bootRangeInsideType regions bi.initrdPhys bi.initrdSize BOOT_MEM_INITRD then
        .error "initrd is not inside an INITRD region"
      else if bi.fb.phys ≠ 0 then
        let fbSize := bi.fb.pitch.setWidth 64 * bi.fb.height.setWidth 64
        if ¬ bootRangeInsideType regions bi.fb.phys fbSize BOOT_MEM_FRAMEBUFFER then
          .error "framebuffer is not inside a FRAMEBUFFER region"
        else if bi.fb.reserved0 ≠ 0 ∨ bi.fb.reserved1 ≠ 0 then
          .error "framebuffer reserved bytes are nonzero"
        else .ok ()
      else .ok ()

/-- The tests of `bootInfoCheckRefs` that concern what the loader has recorded. -/
structure RefsInside (bi : BootInfo) (biAddr : BitVec 64)
    (memory : BitVec 64 → BitVec 8) : Prop where
  memMap : bootRangeInsideType regions bi.memMapPhys
    (BitVec.ofNat 64 (regions.length * sizeofBootMemRegion)) BOOT_MEM_LOADER_RECLAIM = true
  bootInfo : bootRangeInsideType regions (biAddr - bi.hhdmBase) sizeofBootInfo
    BOOT_MEM_LOADER_RECLAIM = true
  cmdline : ∃ e,
    bootFindContainingRegionEnd regions bi.cmdlinePhys BOOT_MEM_LOADER_RECLAIM = some e ∧
    ((List.range (min (e - bi.cmdlinePhys).toNat BOOTINFO_CMDLINE_MAX)).any fun i =>
      memory (bi.hhdmBase + bi.cmdlinePhys + BitVec.ofNat 64 i) = 0) = true
  cmdline_ne : bi.cmdlinePhys ≠ 0
  kernel : bootRangeInsideType regions bi.kernelPhysBase bi.kernelSize BOOT_MEM_KERNEL = true
  initrd : ¬ (bi.initrdSize ≠ 0 ∧
    ¬ bootRangeInsideType regions bi.initrdPhys bi.initrdSize BOOT_MEM_INITRD = true)

/-- The range from `base` on lies inside one region of the type. -/
def InsideType (base length : ℕ) (type : BitVec 32) : Prop :=
  ∃ r ∈ regions, r.type = type ∧ r.base.toNat ≤ base ∧
    base + length ≤ r.base.toNat + r.length.toNat

variable {regions : List BootMemRegion} {type : BitVec 32}

/-- With usable memory left and no framebuffer, the kernel accepts the references. -/
theorem RefsInside.check_ok {bi : BootInfo} {biAddr : BitVec 64} {memory : BitVec 64 → BitVec 8}
    (h : RefsInside regions bi biAddr memory)
    (husable : ∃ r ∈ regions, r.type = BOOT_MEM_USABLE) (hfb : bi.fb.phys = 0) :
    bootInfoCheckRefs bi biAddr memory regions = .ok () := by
  have husable : (regions.any fun r => r.type = BOOT_MEM_USABLE) = true := by
    obtain ⟨r, hr, ht⟩ := husable
    exact List.any_eq_true.2 ⟨r, hr, decide_eq_true ht⟩
  obtain ⟨e, hfind, hscan⟩ := h.cmdline
  unfold bootInfoCheckRefs
  simp only [h.memMap, h.bootInfo, h.kernel, hfind, hscan, husable, if_neg h.initrd,
    if_neg h.cmdline_ne, hfb, not_true_eq_false, if_false, ne_eq]

/-- A part of a range inside a region is inside it. -/
theorem InsideType.mono {base length base' length' : ℕ} (h : InsideType regions base length type)
    (hle : base ≤ base') (hend : base' + length' ≤ base + length) :
    InsideType regions base' length' type := by
  obtain ⟨r, hr, ht, hlo, hhi⟩ := h
  exact ⟨r, hr, ht, by omega, by omega⟩

/-- What lies inside a region passes the test. -/
theorem bootRangeInsideType_of_inside (hok : MemMapOk regions) {base length : BitVec 64}
    (h : InsideType regions base.toNat length.toNat type) :
    bootRangeInsideType regions base length type = true := by
  obtain ⟨r, hr, ht, hlo, hhi⟩ := h
  have hreg := hok.region r hr
  have hlt := hreg.end_lt
  have hend : (base + length).toNat = base.toNat + length.toNat := by
    rw [toNat_add, Nat.mod_eq_of_lt (Nat.lt_of_le_of_lt hhi hlt)]
  have hwrap : ¬ base + length < base := by
    rw [lt_def, hend]
    exact Nat.not_lt.2 (Nat.le_add_right _ _)
  unfold bootRangeInsideType
  split_ifs
  · rfl
  · refine List.any_eq_true.2 ⟨r, hr, decide_eq_true ⟨ht, le_def.2 hlo, ?_⟩⟩
    rw [le_def, hend, hreg.toNat_end]
    exact hhi

/-- An address inside a region is found, with the end of the region. -/
theorem bootFindContainingRegionEnd_of_inside
    (hok : MemMapOk regions) {base : BitVec 64} {length : ℕ} (hpos : 0 < length)
    (h : InsideType regions base.toNat length type) :
    ∃ e, bootFindContainingRegionEnd regions base type = some e ∧
      base.toNat + length ≤ e.toNat := by
  obtain ⟨r, hr, ht, hlo, hhi⟩ := h
  have hreg := hok.region r hr
  unfold bootFindContainingRegionEnd
  cases hfind : regions.find? fun r => r.type = type ∧ r.base ≤ base ∧ base < r.base + r.length with
  | none =>
    have hnone := List.find?_eq_none.1 hfind r hr
    refine absurd (decide_eq_true ⟨ht, le_def.2 hlo, ?_⟩) hnone
    rw [lt_def, hreg.toNat_end]
    omega
  | some r' =>
    -- The region that is found is this one, since regions do not overlap.
    have hr' := List.mem_of_find?_eq_some hfind
    have hin : r'.type = type ∧ r'.base ≤ base ∧ base < r'.base + r'.length := by
      simpa using List.find?_some hfind
    have hreg' := hok.region r' hr'
    rw [le_def, lt_def, hreg'.toNat_end] at hin
    have heq := hok.region_unique hr' hr hin.2 ⟨hlo, by omega⟩
    exact ⟨_, rfl, by rw [hreg'.toNat_end, heq]; exact hhi⟩

end Bongos.Core
