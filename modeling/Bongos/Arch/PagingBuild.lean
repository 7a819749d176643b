import Bongos.Arch.Paging
import Bongos.Core.BootInfo

/-!
# Building the kernel's page tables

`archPagingBuildKernel` of `paging.c`, and `archEarlyLookup` of `early-map.c`, which it calls once.
The tables are built in the memory of the loader's tables and are not active yet. A call that panics
returns a `BuildPanic`; where `getOrAllocTable` failed, the panic carries its status, which the
message of the source does not show. Addresses are natural numbers: no range that is mapped here
reaches the end of the address space.
-/

namespace Bongos.Arch

open Bongos.Core Mm

def ARCH_PML4_PAGE_ARRAY_START : ℕ := 448

def ARCH_PML4_PAGE_ARRAY_END : ℕ := 480

/-- The linker's symbols that `archPagingBuildKernel` reads, besides those of the text. -/
structure KernelSections where
  kernelImageStart : ℕ
  kernelRodataStart : ℕ
  kernelRodataEnd : ℕ
  kernelDataStart : ℕ
  kernelDataEnd : ℕ
  kernelBootStackBottom : ℕ
  kernelBootStackTop : ℕ
  kernelIst1Bottom : ℕ
  kernelIst1Top : ℕ
  kernelIst2Bottom : ℕ
  kernelIst2Top : ℕ
  kernelIst3Bottom : ℕ
  kernelIst3Top : ℕ

/-- What `archPagingBuildKernel` is given: the symbols, the fields of `BootInfo` that it reads, the
processor, and what it learns from the `Page` array about a page of the loader's tables. -/
structure BuildEnv where
  sections : KernelSections
  kernelPhysBase : ℕ
  kernelVirtBase : ℕ
  /-- `CPUID.80000001H:EDX[26]`. -/
  has1GPages : Bool
  cr3 : ℕ
  /-- The condition of `validateReservedTablePage`. -/
  reservedTablePage : ℕ → Bool

/-- The panics of `archPagingBuildKernel`. -/
inductive BuildPanic where
  | calledTwice
  /-- `kernelTextStart` is not at `kernelPhysBase` under the loader's tables. -/
  | textBase
  | pml4Memory (st : Status)
  | hugePageArray (idx : ℕ)
  | notReserved (phys : ℕ)
  | slotMemory (idx : ℕ) (st : Status)
  | notContained
  | misaligned (va pa size : ℕ)
  | pdptMemory (va : ℕ) (st : Status)
  | pdptConflict (va : ℕ)
  | pdMemory (va : ℕ) (st : Status)
  | pdConflict (va : ℕ)
  | ptMemory (va : ℕ) (st : Status)
  | ptConflict (va : ℕ)
  deriving DecidableEq

/-! ## Walks -/

/-- The walk of `archEarlyLookup`: the leaf that maps an address, and its size. -/
def leafAt (mem : ℕ → ℕ → ℕ) (root va : ℕ) : Option (ℕ × ℕ) :=
  let e4 := mem root (pml4Index va)
  if e4 &&& X86_PTE_P = 0 then none
  else
    let e3 := mem (tableAt e4) (pdptIndex va)
    if e3 &&& X86_PTE_P = 0 then none
    else if e3 &&& X86_PTE_PS ≠ 0 then some (e3, X86_PTE_SIZE_1G)
    else
      let e2 := mem (tableAt e3) (pdIndex va)
      if e2 &&& X86_PTE_P = 0 then none
      else if e2 &&& X86_PTE_PS ≠ 0 then some (e2, X86_PTE_SIZE_2M)
      else
        let e1 := mem (tableAt e2) (ptIndex va)
        if e1 &&& X86_PTE_P = 0 then none else some (e1, X86_PTE_SIZE_4K)

/-- The physical address that a leaf of a size gives to an address. -/
def leafPhys (va entry leafSize : ℕ) : ℕ :=
  (entry &&& X86_PTE_ADDR_MASK &&& (2^64 - leafSize)) ||| (va &&& (leafSize - 1))

/-- `archEarlyLookup`: the physical address and the size of the leaf. -/
def archEarlyLookup (mem : ℕ → ℕ → ℕ) (cr3 va : ℕ) : Option (ℕ × ℕ) :=
  (leafAt mem (tableAt cr3) va).map fun (entry, leafSize) => (leafPhys va entry leafSize, leafSize)

/-! ## `buildMapRange` -/

variable (env : BuildEnv)

variable (alloc : TableAnswers)

/-- One round of the loop of `buildMapRange`: how many bytes it has mapped, and the state. -/
def buildMapStep (leafFlags : ℕ) (allowLarge : Bool)
    (va pa size : ℕ) (s : Paging) : Except BuildPanic (ℕ × Paging) :=
  match getOrAllocTable alloc s s.root (pml4Index va) with
  | (.error st, _) => .error (.pdptMemory va st)
  | (.ok pdpt, s) =>
    if allowLarge ∧ env.has1GPages ∧ va &&& (X86_PTE_SIZE_1G - 1) = 0 ∧
        pa &&& (X86_PTE_SIZE_1G - 1) = 0 ∧ size ≥ X86_PTE_SIZE_1G ∧ pa ≥ X86_PTE_SIZE_2M then
      if s.mem pdpt (pdptIndex va) &&& X86_PTE_P ≠ 0 then .error (.pdptConflict va)
      else .ok (X86_PTE_SIZE_1G, s.write pdpt (pdptIndex va)
        ((pa &&& X86_PTE_ADDR_MASK &&& (2^64 - X86_PTE_SIZE_1G)) ||| leafFlags ||| X86_PTE_PS))
    else match getOrAllocTable alloc s pdpt (pdptIndex va) with
      | (.error st, _) => .error (.pdMemory va st)
      | (.ok pd, s) =>
        if allowLarge ∧ va &&& (X86_PTE_SIZE_2M - 1) = 0 ∧ pa &&& (X86_PTE_SIZE_2M - 1) = 0 ∧
            size ≥ X86_PTE_SIZE_2M ∧ pa ≥ X86_PTE_SIZE_2M then
          if s.mem pd (pdIndex va) &&& X86_PTE_P ≠ 0 then .error (.pdConflict va)
          else .ok (X86_PTE_SIZE_2M, s.write pd (pdIndex va)
            ((pa &&& X86_PTE_ADDR_MASK &&& (2^64 - X86_PTE_SIZE_2M)) ||| leafFlags ||| X86_PTE_PS))
        else match getOrAllocTable alloc s pd (pdIndex va) with
          | (.error st, _) => .error (.ptMemory va st)
          | (.ok pt, s) =>
            if s.mem pt (ptIndex va) &&& X86_PTE_P ≠ 0 then .error (.ptConflict va)
            else .ok (X86_PTE_SIZE_4K,
              s.write pt (ptIndex va) ((pa &&& X86_PTE_ADDR_MASK) ||| leafFlags))

/-- The loop of `buildMapRange`. Every round maps at least one page, so the first argument, which
bounds the rounds, is the number of pages at the start. -/
def buildMapLoop (leafFlags : ℕ) (allowLarge : Bool) :
    ℕ → ℕ → ℕ → ℕ → Paging → Except BuildPanic Paging
  | 0, _, _, _, s => .ok s
  | n + 1, va, pa, size, s =>
    if size = 0 then .ok s
    else do
      let (mapped, s) ← buildMapStep env alloc leafFlags allowLarge va pa size s
      buildMapLoop leafFlags allowLarge n (va + mapped) (pa + mapped) (size - mapped) s

def buildMapRange (va pa size leafFlags : ℕ)
    (allowLarge : Bool) (s : Paging) : Except BuildPanic Paging :=
  if (va ||| pa ||| size) &&& (X86_PTE_SIZE_4K - 1) ≠ 0 then .error (.misaligned va pa size)
  else buildMapLoop env alloc leafFlags allowLarge (size / X86_PTE_SIZE_4K) va pa size s

/-! ## The root table -/

def validateReservedTablePage (phys : ℕ) : Except BuildPanic Unit :=
  if env.reservedTablePage phys then .ok () else .error (.notReserved phys)

def adoptPageArraySubtree (s : Paging) (pdptPhys : ℕ) : Except BuildPanic Unit := do
  validateReservedTablePage env pdptPhys
  (List.range 512).forM fun i => do
    let e3 := s.mem (tableAt pdptPhys) i
    if e3 &&& X86_PTE_P = 0 ∨ e3 &&& X86_PTE_PS ≠ 0 then pure ()
    else do
      let pdPhys := e3 &&& X86_PTE_ADDR_MASK
      validateReservedTablePage env pdPhys
      (List.range 512).forM fun j => do
        let e2 := s.mem (tableAt pdPhys) j
        if e2 &&& X86_PTE_P = 0 ∨ e2 &&& X86_PTE_PS ≠ 0 then pure ()
        else validateReservedTablePage env (e2 &&& X86_PTE_ADDR_MASK)

/-- The loop of `archPagingBuildKernel` over the kernel half of the root table, for one slot. -/
def buildSlot (s : Paging) (idx : ℕ) : Except BuildPanic Paging :=
  let entry := s.mem (tableAt (env.cr3 &&& X86_PTE_ADDR_MASK)) idx
  if idx ≥ ARCH_PML4_PAGE_ARRAY_START ∧ idx < ARCH_PML4_PAGE_ARRAY_END ∧
    entry &&& X86_PTE_P ≠ 0 then
    if entry &&& X86_PTE_PS ≠ 0 then .error (.hugePageArray idx)
    else do
      adoptPageArraySubtree env s (entry &&& X86_PTE_ADDR_MASK)
      return s.write s.root idx entry
  else
    match allocTable alloc s with
    | (.error st, _) => .error (.slotMemory idx st)
    | (.ok pdptPhys, s) =>
      .ok (s.write s.root idx ((pdptPhys &&& X86_PTE_ADDR_MASK) ||| X86_PTE_P ||| X86_PTE_W))

/-! ## The direct map -/

/-- The flags of a writable part of the direct map. -/
def HHDM_FLAGS : ℕ := X86_PTE_P ||| X86_PTE_W ||| X86_PTE_NX ||| X86_PTE_G

/-- `roPhysEnd`: the end of the read-only part of the image. -/
def BuildEnv.roPhysEnd : ℕ :=
  (env.kernelPhysBase + (env.sections.kernelRodataEnd - env.sections.kernelImageStart)) % 2^64

/-- The pieces of a `KERNEL` region: before, in, and after the read-only part of the image. -/
def buildKernelRegion (base «end» : ℕ) (s : Paging) : Except BuildPanic Paging := do
  let textPhysStart := env.kernelPhysBase
  let roPhysEnd := env.roPhysEnd
  let roStart := if textPhysStart < base then base
    else if textPhysStart > «end» then «end» else textPhysStart
  let roEnd := if roPhysEnd < roStart then roStart
    else if roPhysEnd > «end» then «end» else roPhysEnd
  let s ← if base < roStart then
    buildMapRange env alloc (BOOTINFO_HHDM_BASE + base) base (roStart - base) HHDM_FLAGS true s
    else .ok s
  let s ← if roStart < roEnd then
    buildMapRange env alloc (BOOTINFO_HHDM_BASE + roStart) roStart (roEnd - roStart)
      (X86_PTE_P ||| X86_PTE_NX ||| X86_PTE_G) false s
    else .ok s
  if roEnd < «end» then
    buildMapRange env alloc (BOOTINFO_HHDM_BASE + roEnd) roEnd («end» - roEnd) HHDM_FLAGS true s
    else .ok s

/-- The types that the direct map covers. -/
def hhdmMapsType (type : BitVec 32) : Bool :=
  type = BOOT_MEM_USABLE ∨ type = BOOT_MEM_LOADER_RECLAIM ∨ type = BOOT_MEM_KERNEL ∨
    type = BOOT_MEM_INITRD ∨ type = BOOT_MEM_ACPI_RECLAIM ∨ type = BOOT_MEM_ACPI_NVS ∨
    type = BOOT_MEM_FRAMEBUFFER

/-- The loop of `archPagingBuildKernel` over the regions, for one region. -/
def buildRegion (s : Paging) (r : BootMemRegion) : Except BuildPanic Paging :=
  if !hhdmMapsType r.type then .ok s
  else
    let wc := r.type = BOOT_MEM_FRAMEBUFFER
    let base := r.base.toNat
    let «end» := (r.base + r.length).toNat
    if base ≥ BOOTINFO_HHDM_SIZE then .ok s
    else
      let «end» := if «end» > BOOTINFO_HHDM_SIZE then BOOTINFO_HHDM_SIZE else «end»
      if base ≥ «end» then .ok s
      else if r.type = BOOT_MEM_KERNEL then buildKernelRegion env alloc base «end» s
      else buildMapRange env alloc (BOOTINFO_HHDM_BASE + base) base («end» - base)
        (HHDM_FLAGS ||| (if wc then X86_PTE_PWT else 0)) (!wc) s

/-! ## `archPagingBuildKernel` -/

/-- `segs`: the parts of the image, with their flags. -/
def BuildEnv.segs (s : Paging) : List (ℕ × ℕ × ℕ) :=
  [(s.kernelTextStart, s.kernelTextEnd, X86_PTE_P ||| X86_PTE_G),
    (env.sections.kernelRodataStart, env.sections.kernelRodataEnd,
      X86_PTE_P ||| X86_PTE_NX ||| X86_PTE_G),
    (env.sections.kernelDataStart, env.sections.kernelDataEnd, HHDM_FLAGS),
    (env.sections.kernelBootStackBottom, env.sections.kernelBootStackTop, HHDM_FLAGS),
    (env.sections.kernelIst1Bottom, env.sections.kernelIst1Top, HHDM_FLAGS),
    (env.sections.kernelIst2Bottom, env.sections.kernelIst2Top, HHDM_FLAGS),
    (env.sections.kernelIst3Bottom, env.sections.kernelIst3Top, HHDM_FLAGS)]

/-- The loop of `archPagingBuildKernel` over the parts of the image, for one part. -/
def buildSegment (s : Paging) : ℕ × ℕ × ℕ → Except BuildPanic Paging
  | (start, «end», flags) =>
    if «end» = start then .ok s
    else buildMapRange env alloc start (env.kernelPhysBase + (start - env.kernelVirtBase))
      («end» - start) flags false s

/-- The read-only part of the image lies in one `KERNEL` region. -/
def textContained (map : List BootMemRegion) : Bool :=
  map.any fun r => r.type = BOOT_MEM_KERNEL ∧ r.base.toNat ≤ env.kernelPhysBase ∧
    env.roPhysEnd ≤ (r.base + r.length).toNat

def archPagingBuildKernel (env : BuildEnv) (map : List BootMemRegion)
    (s : Paging) : Except BuildPanic Paging :=
  if s.kernelPml4Phys ≠ 0 then .error .calledTwice
  else if (archEarlyLookup s.mem env.cr3 s.kernelTextStart).map Prod.fst ≠
    some env.kernelPhysBase then
    .error .textBase
  else match allocTable alloc s with
    | (.error st, _) => .error (.pml4Memory st)
    | (.ok pml4Phys, s) => do
      let s := { s with kernelPml4Phys := pml4Phys }
      let s ← (List.range' ARCH_PML4_KERNEL_START
        (ARCH_PML4_KERNEL_END - ARCH_PML4_KERNEL_START)).foldlM (buildSlot env alloc) s
      let s := { s with
        kernelRoPhysStart := env.kernelPhysBase, kernelRoPhysEnd := env.roPhysEnd }
      if !textContained env map then .error .notContained
      else do
        let s ← map.foldlM (buildRegion env alloc) s
        (env.segs s).foldlM (buildSegment env alloc) s

end Bongos.Arch
