import Bongos.Mm.KernelLayout
import Bongos.RadixTable
import Bongos.Status

/-!
# The kernel's page tables

`paging.c` and the calls of `vmm.c` that map, unmap, and look up pages, once `vmmInit` has switched
to the kernel's own tables. A table is known by its physical address, and `Paging.mem` gives its
entries. The walks read bits 12 to 47 of an address only, so the sums `va + off` are not reduced.

`allocTable` asks the physical memory manager for a zeroed page; its answers are an argument. A call
that panics, or that stores through a null pointer, returns a `PagingFault` or a `WxPanic`. The TLB
is not modelled.
-/

namespace Bongos.Arch

open Mm RadixTable

/-! ## Entries -/

/-- `X86_PTE_P`: present. -/
def X86_PTE_P : ℕ := 1 <<< 0

/-- `X86_PTE_W`: writable. -/
def X86_PTE_W : ℕ := 1 <<< 1

/-- `X86_PTE_US`: user. -/
def X86_PTE_US : ℕ := 1 <<< 2

/-- `X86_PTE_PWT`: bit 0 of the PAT index. -/
def X86_PTE_PWT : ℕ := 1 <<< 3

/-- `X86_PTE_PCD`: bit 1 of the PAT index. -/
def X86_PTE_PCD : ℕ := 1 <<< 4

/-- `X86_PTE_PS`: a large leaf. -/
def X86_PTE_PS : ℕ := 1 <<< 7

/-- `X86_PTE_G`: global. -/
def X86_PTE_G : ℕ := 1 <<< 8

/-- `X86_PTE_NX`: not executable. -/
def X86_PTE_NX : ℕ := 1 <<< 63

/-- `X86_PTE_ADDR_MASK`: bits 12 to 51. -/
def X86_PTE_ADDR_MASK : ℕ := 0x000FFFFFFFFFF000

def X86_PTE_SIZE_4K : ℕ := 1 <<< 12

theorem size_4k : X86_PTE_SIZE_4K = 4096 := rfl

def X86_PTE_SIZE_2M : ℕ := 1 <<< 21

def X86_PTE_SIZE_1G : ℕ := 1 <<< 30

def ARCH_PML4_KERNEL_START : ℕ := 256

def ARCH_PML4_KERNEL_END : ℕ := 512

/-! ## Mapping flags -/

abbrev VmmFlags := BitVec 32

def VMM_WRITE : VmmFlags := 1 <<< 0

def VMM_EXEC : VmmFlags := 1 <<< 1

def VMM_CACHE_WB : VmmFlags := 0 <<< 2

def VMM_CACHE_WC : VmmFlags := 1 <<< 2

def VMM_CACHE_UC : VmmFlags := 2 <<< 2

def VMM_CACHE_MASK : VmmFlags := 3 <<< 2

def VMM_FLAGS_VALID : VmmFlags := VMM_WRITE ||| VMM_EXEC ||| VMM_CACHE_MASK

/-! ## State -/

/-- The state that `paging.c` reads: the memory of the tables, its own variables, the linker's
symbols, and the registers. -/
structure Paging where
  /-- The entries of the table at a physical address. -/
  mem : ℕ → ℕ → ℕ
  kernelPml4Phys : ℕ
  /-- `tablesActive`, and `vmmActive` of `vmm.c`, which `vmmInit` sets right after it. -/
  tablesActive : Bool
  kernelRoPhysStart : ℕ
  kernelRoPhysEnd : ℕ
  kernelTextStart : ℕ
  kernelTextEnd : ℕ
  /-- `CPUID.80000000H:EAX`. -/
  cpuidMaxExtended : ℕ
  /-- `CPUID.80000008H:EAX`. -/
  cpuidAddressSize : ℕ
  cr0Wp : Bool
  eferNxe : Bool

/-- How `allocTable` answers: the address of a page, or the error of `pmmAllocPages`. -/
abbrev TableAnswers := Paging → Except Status ℕ

/-- How a call ends that does not return. -/
inductive PagingFault where
  /-- A panic: the call was made before the tables were activated. -/
  | inactive
  /-- A store through the null pointer that `findLeafPte` returned. -/
  | nullPte
  deriving DecidableEq

def pml4Index (va : ℕ) : ℕ := va >>> 39 &&& 511

def pdptIndex (va : ℕ) : ℕ := va >>> 30 &&& 511

def pdIndex (va : ℕ) : ℕ := va >>> 21 &&& 511

def ptIndex (va : ℕ) : ℕ := va >>> 12 &&& 511

/-- `tableAt`, up to the offset of the direct map: the table that an entry points to. -/
def tableAt (phys : ℕ) : ℕ := phys &&& X86_PTE_ADDR_MASK

variable (s : Paging)

/-- The root table. -/
def Paging.root : ℕ := tableAt s.kernelPml4Phys

/-- A store of one entry. -/
def Paging.write (table idx entry : ℕ) : Paging :=
  { s with mem := RadixTable.write s.mem table idx entry }

variable (alloc : TableAnswers)

/-- `allocTable`: the page it returns is zeroed. -/
def allocTable (s : Paging) : Except Status ℕ × Paging :=
  match alloc s with
  | .error st => (.error st, s)
  | .ok phys => (.ok phys, { s with mem := Function.update s.mem (tableAt phys) fun _ => 0 })

def getOrAllocTable (s : Paging) (table idx : ℕ) : Except Status ℕ × Paging :=
  let entry := s.mem table idx
  if entry &&& X86_PTE_P ≠ 0 then
    if entry &&& X86_PTE_PS ≠ 0 then (.error .errInvalid, s) else (.ok (tableAt entry), s)
  else
    match allocTable alloc s with
    | (.error st, s) => (.error st, s)
    | (.ok newPhys, s) =>
      (.ok (tableAt newPhys),
        s.write table idx ((newPhys &&& X86_PTE_ADDR_MASK) ||| X86_PTE_P ||| X86_PTE_W))

/-! ## Lookups -/

/-- `findLeafPte`: the table and the index of the 4 KiB entry of an address. -/
def findLeafPte (va : ℕ) : Option (ℕ × ℕ) :=
  let e4 := s.mem s.root (pml4Index va)
  if e4 &&& X86_PTE_P = 0 then none
  else
    let e3 := s.mem (tableAt e4) (pdptIndex va)
    if e3 &&& X86_PTE_P = 0 ∨ e3 &&& X86_PTE_PS ≠ 0 then none
    else
      let e2 := s.mem (tableAt e3) (pdIndex va)
      if e2 &&& X86_PTE_P = 0 ∨ e2 &&& X86_PTE_PS ≠ 0 then none
      else some (tableAt e2, ptIndex va)

/-- `findAnyLeafEntry`: the leaf of any size that maps an address. -/
def findAnyLeafEntry (va : ℕ) : Option ℕ :=
  let e4 := s.mem s.root (pml4Index va)
  if e4 &&& X86_PTE_P = 0 then none
  else
    let e3 := s.mem (tableAt e4) (pdptIndex va)
    if e3 &&& X86_PTE_P = 0 then none
    else if e3 &&& X86_PTE_PS ≠ 0 then some e3
    else
      let e2 := s.mem (tableAt e3) (pdIndex va)
      if e2 &&& X86_PTE_P = 0 then none
      else if e2 &&& X86_PTE_PS ≠ 0 then some e2
      else
        let e1 := s.mem (tableAt e2) (ptIndex va)
        if e1 &&& X86_PTE_P = 0 then none else some e1

/-- `hhdmLeafEntry`: the leaf of the direct map that maps a physical address. -/
def hhdmLeafEntry (pa : ℕ) : Option ℕ :=
  if pa ≥ BOOTINFO_HHDM_SIZE then none else findAnyLeafEntry s (BOOTINFO_HHDM_BASE + pa)

/-- The cache type that `hhdmAliasCache` and `archLookupKernel` read off a leaf. -/
def cacheOfEntry (entry : ℕ) : VmmFlags :=
  if entry &&& X86_PTE_PCD ≠ 0 then VMM_CACHE_UC
  else if entry &&& X86_PTE_PWT ≠ 0 then VMM_CACHE_WC
  else VMM_CACHE_WB

/-- `hhdmAliasCache`: the cache type of the leaf in the direct map, if it is present. -/
def hhdmAliasCache (pa : ℕ) : Option VmmFlags :=
  (hhdmLeafEntry s pa).map cacheOfEntry

/-- `physAddrLimit`: the largest physical address that the processor implements. -/
def physAddrLimit : ℕ :=
  let bits := if s.cpuidMaxExtended ≥ 0x80000008 then s.cpuidAddressSize &&& 0xFF else 36
  let bits := if bits < 36 then 36 else if bits > 52 then 52 else bits
  (1 <<< bits) - 1

/-- `archLookupKernel`: the frame and the flags of a page that a 4 KiB leaf maps. -/
def archLookupKernel (va : ℕ) : Except PagingFault (Except Status (ℕ × VmmFlags)) :=
  if !s.tablesActive then .error .inactive
  else if va &&& (X86_PTE_SIZE_4K - 1) ≠ 0 then .ok (.error .errInvalid)
  else match findLeafPte s va with
    | none => .ok (.error .errNotFound)
    | some (table, idx) =>
      let e := s.mem table idx
      if e &&& X86_PTE_P = 0 then .ok (.error .errNotFound)
      else .ok (.ok (e &&& X86_PTE_ADDR_MASK,
        (if e &&& X86_PTE_W ≠ 0 then VMM_WRITE else 0) |||
        (if e &&& X86_PTE_NX = 0 then VMM_EXEC else 0) ||| cacheOfEntry e))

/-! ## Mapping and unmapping -/

/-- The leaf flags of `archMapPages`. -/
def leafFlags (flags : VmmFlags) : ℕ :=
  let cache := flags &&& VMM_CACHE_MASK
  X86_PTE_P ||| X86_PTE_NX ||| X86_PTE_G |||
    (if flags &&& VMM_WRITE ≠ 0 then X86_PTE_W else 0) |||
    (if cache = VMM_CACHE_WC then X86_PTE_PWT
     else if cache = VMM_CACHE_UC then X86_PTE_PWT ||| X86_PTE_PCD
     else 0)

/-- The walk of `archMapPages` to the page table of an address, which allocates the tables that are
missing. -/
def getOrAllocPt (s : Paging) (v : ℕ) : Except Status ℕ × Paging :=
  match getOrAllocTable alloc s s.root (pml4Index v) with
  | (.error st, s) => (.error st, s)
  | (.ok pdpt, s) =>
    match getOrAllocTable alloc s pdpt (pdptIndex v) with
    | (.error st, s) => (.error st, s)
    | (.ok pd, s) => getOrAllocTable alloc s pd (pdIndex v)

/-- One round of the mapping loop of `archMapPages`. -/
def mapPage (s : Paging) (v entry : ℕ) : Status × Paging :=
  match getOrAllocPt alloc s v with
  | (.error st, s) => (st, s)
  | (.ok pt, s) =>
    if s.mem pt (ptIndex v) &&& X86_PTE_P ≠ 0 then (.errInvalid, s)
    else (.ok, s.write pt (ptIndex v) entry)

/-- The mapping loop of `archMapPages`, from `off`, over the number of pages left. The result is the
status, how many bytes were mapped, and the state. -/
def mapLoop (va pa flags : ℕ) : ℕ → ℕ → Paging → Status × ℕ × Paging
  | 0, off, s => (.ok, off, s)
  | n + 1, off, s =>
    match mapPage alloc s (va + off) (((pa + off) &&& X86_PTE_ADDR_MASK) ||| flags) with
    | (.ok, s) => mapLoop va pa flags n (off + X86_PTE_SIZE_4K) s
    | (st, s) => (st, off, s)

def clearLeaf (va : ℕ) : Except PagingFault Paging :=
  match findLeafPte s va with
  | none => .error .nullPte
  | some (table, idx) => .ok (s.write table idx 0)

/-- The loops that clear a range of leaves, over the number of pages left. -/
def clearLoop : ℕ → ℕ → Paging → Except PagingFault Paging
  | 0, _, s => .ok s
  | n + 1, va, s => do clearLoop n (va + X86_PTE_SIZE_4K) (← clearLeaf s va)

/-- The anti-aliasing check of `archMapPages` for one page: the direct map has it with another cache
type. -/
def aliasConflict (cache : VmmFlags) (pa : ℕ) : Bool :=
  match hhdmAliasCache s pa with
  | none => false
  | some aliasCache => aliasCache ≠ cache

/-- The argument checks of `archMapPages`. -/
def archMapCheck (va pa size : ℕ) (flags : VmmFlags) : Status :=
  if (va ||| pa ||| size) &&& (X86_PTE_SIZE_4K - 1) ≠ 0 ∨ size = 0 then .errInvalid
  else
    let lastPa := (pa + (size - 1)) % 2^64
    if lastPa < pa ∨ lastPa > physAddrLimit s then .errInvalid
    else if flags &&& VMM_EXEC ≠ 0 then .errUnsupported
    else if flags &&& ~~~VMM_FLAGS_VALID ≠ 0 ∨ flags &&& VMM_CACHE_MASK = VMM_CACHE_MASK then
      .errInvalid
    else if flags &&& VMM_WRITE ≠ 0 ∧ pa < s.kernelRoPhysEnd ∧
        s.kernelRoPhysStart < (pa + size) % 2^64 then .errInvalid
    else if ∃ i < size / X86_PTE_SIZE_4K,
        aliasConflict s (flags &&& VMM_CACHE_MASK) (pa + i * X86_PTE_SIZE_4K) = true then
          .errInvalid
    else .ok

def archMapPages (s : Paging) (va pa size : ℕ) (flags : VmmFlags) :
    Except PagingFault (Status × Paging) :=
  if !s.tablesActive then .error .inactive
  else match archMapCheck s va pa size flags with
    | .ok =>
      match mapLoop alloc va pa (leafFlags flags) (size / X86_PTE_SIZE_4K) 0 s with
      | (.ok, _, s) => .ok (.ok, s)
      | (st, mapped, s) => do
        let s ← clearLoop (mapped / X86_PTE_SIZE_4K) va s
        pure (st, s)
    | st => .ok (st, s)

/-- The check of `archUnmapPages` for one page: it has a 4 KiB leaf. -/
def leafPresent (va : ℕ) : Bool :=
  match findLeafPte s va with
  | none => false
  | some (table, idx) => s.mem table idx &&& X86_PTE_P ≠ 0

def archUnmapPages (va size : ℕ) : Except PagingFault (Status × Paging) :=
  if !s.tablesActive then .error .inactive
  else if (va ||| size) &&& (X86_PTE_SIZE_4K - 1) ≠ 0 ∨ size = 0 then .ok (.errInvalid, s)
  else if ∃ i < size / X86_PTE_SIZE_4K, leafPresent s (va + i * X86_PTE_SIZE_4K) = false then
    .ok (.errNotFound, s)
  else do
    let s ← clearLoop (size / X86_PTE_SIZE_4K) va s
    pure (.ok, s)

/-! ## `vmm.c` -/

def vmmRangeInKva (va size : ℕ) : Bool :=
  if size = 0 ∨ va % KVA_PAGE_SIZE ≠ 0 ∨ size % KVA_PAGE_SIZE ≠ 0 then false
  else
    let «end» := (va + size) % 2^64
    if «end» < va then false
    else va ≥ VM_KVA_BASE && «end» ≤ VM_KVA_END

def vmmMapKernel (s : Paging) (va pa size : ℕ) (flags : VmmFlags) :
    Except PagingFault (Status × Paging) :=
  if !s.tablesActive then .error .inactive
  else if !vmmRangeInKva va size ∨ pa % KVA_PAGE_SIZE ≠ 0 then .ok (.errInvalid, s)
  else archMapPages alloc s va pa size flags

def vmmUnmapKernel (va size : ℕ) : Except PagingFault (Status × Paging) :=
  if !s.tablesActive then .error .inactive
  else if !vmmRangeInKva va size then .ok (.errInvalid, s)
  else archUnmapPages s va size

def vmmLookupKernel (va : ℕ) : Except PagingFault (Except Status (ℕ × VmmFlags)) :=
  if !s.tablesActive then .error .inactive else archLookupKernel s va

end Bongos.Arch
