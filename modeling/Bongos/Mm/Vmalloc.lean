import Bongos.Arch.Paging
import Bongos.FallibleState
import Bongos.Mm.Kva
import Bongos.Mm.Slab

/-!
# Mappings of the kernel virtual area

`vmalloc.c`, and the calls of `vmm.c` that reserve parts of the kernel virtual area and map device
memory. They work on four allocators at once: the page tables, the extents of the area, the slab
cache of the area records, and the frames of the physical memory manager. A call is a program on the
state of all four that may end in a panic, with what it has written by then.

The physical memory manager is an argument: it answers requests for a page table, for the block of a
slab, and for a single frame. The records of the `Page` array are those of the slab allocator's
state. Frames and areas have no contents here, so `VMALLOC_ZERO` changes nothing.
-/

namespace Bongos.Mm

open Arch FallibleState

def VMALLOC_AREA_MAGIC : ℕ := 0x56A1A0CA56A1A0CA

/-- `VMALLOC_MAX_SIZE`: 1 GiB. -/
def VMALLOC_MAX_SIZE : ℕ := 1 <<< 30

def VMALLOC_ZERO : BitVec 32 := 1

def VMALLOC_FLAGS_VALID : BitVec 32 := VMALLOC_ZERO

def sizeofVmallocArea : ℕ := 24

structure VmallocArea where
  magic : ℕ
  va : ℕ
  pages : ℕ
  deriving DecidableEq

inductive VmallocBugKind where
  | badPointer
  | notMapped
  | notVmalloc
  | notHead
  | corrupt
  | badSize
  | badFlags
  deriving DecidableEq

/-- How a call ends that does not return. -/
inductive VmBug where
  | paging (fault : PagingFault)
  /-- "vmm: kvaFree: range outside the KVA region". -/
  | kvaFreeRange (va size : ℕ)
  /-- "vmm: kvaFree: invalid range". -/
  | kvaFreeInvalid (va size : ℕ)
  /-- "vmm: vmmUnmapMmio: bad range". -/
  | mmioBadRange (va size : ℕ)
  /-- "vmm: vmmUnmapMmio: not a vmmMapMmio range". -/
  | mmioNotRange (va size : ℕ)
  /-- "vmm: vmmUnmapMmio: page is not a mapped UC MMIO page". -/
  | mmioPage (va : ℕ)
  /-- "vmm: vmmUnmapMmio: not a vmmMapMmio mapping". -/
  | mmioNotMapping (va size : ℕ)
  | vmalloc (kind : VmallocBugKind)
  | slab (bug : SlabBugKind × ℕ)
  | pmm (bug : PmmBugKind × ℕ)
  /-- A store through the null pointer that `pmmPhysToPage` returned. -/
  | nullPage
  deriving DecidableEq

/-- The state of the four allocators. -/
structure VmState where
  paging : Paging
  /-- `kvaState`. -/
  kva : KvaState
  slab : SlabState
  /-- The area records, by their addresses. -/
  areas : ℕ → VmallocArea
  vmallocAreaCache : ℕ
  vmallocAreaCountValue : ℕ
  vmallocPageCountValue : ℕ

/-- The answers of the physical memory manager: to requests for page tables, for the blocks of
slabs, and for single frames. -/
structure VmAnswers where
  tables : VmState → TableAnswers
  slabs : VmState → PmmAnswers
  frames : VmState → Option ℕ

/-- A call that may panic, with what it has written by then. -/
abbrev VmM := ExceptT VmBug (StateM VmState)

/-! ## `vmm.c` -/

/-- A call on the page tables. -/
def onPaging {α : Type} (f : Paging → Except PagingFault (α × Paging)) : VmM α := do
  let s ← get
  match f s.paging with
  | .error fault => throw (.paging fault)
  | .ok (a, paging) => do
    set { s with paging := paging }
    return a

variable (ans : VmAnswers)

/-- `vmmMapKernel`. -/
def mapKernel (va pa size : ℕ) (flags : VmmFlags) : VmM Status := do
  let s ← get
  onPaging fun paging => vmmMapKernel (ans.tables s) paging va pa size flags

/-- `vmmUnmapKernel`. -/
def unmapKernel (va size : ℕ) : VmM Status := onPaging fun paging => vmmUnmapKernel paging va size

/-- `vmmLookupKernel`. -/
def lookupKernel (va : ℕ) : VmM (Except Status (ℕ × VmmFlags)) :=
  onPaging fun paging => (vmmLookupKernel paging va).map fun r => (r, paging)

def vmmKvaAlloc (size : ℕ) : VmM (Except Status ℕ) := do
  let s ← get
  if !s.paging.tablesActive then throw (.paging .inactive)
  else match kvaAlloc s.kva size with
    | .error st => return .error st
    | .ok (va, kva) => do
      set { s with kva := kva }
      return .ok va

def vmmKvaFree (va size : ℕ) : VmM Unit := do
  let s ← get
  if !s.paging.tablesActive then throw (.paging .inactive)
  else if !vmmRangeInKva va size then throw (.kvaFreeRange va size)
  else
    let (r, kva) := exec (kvaFree va size) s.kva
    set { s with kva := kva }
    match r with
    | .error _ => throw (.kvaFreeInvalid va size)
    | .ok _ => return ()

/-- The address of the page that an address is in. -/
def pageFloor (a : ℕ) : ℕ := a &&& (2^64 - 1 - (KVA_PAGE_SIZE - 1))

/-- `vmmMapMmio`: the address that stands for `pa`. -/
def vmmMapMmio (pa size : ℕ) : VmM (Except Status ℕ) := do
  let s ← get
  if !s.paging.tablesActive then throw (.paging .inactive)
  else
    let «end» := (pa + size) % 2^64
    if size = 0 ∨ «end» < pa ∨ «end» > 2^64 - 1 - (KVA_PAGE_SIZE - 1) then return .error .errInvalid
    else do
      let base := pageFloor pa
      let len := pageFloor («end» + KVA_PAGE_SIZE - 1) - base
      match ← vmmKvaAlloc len with
      | .error st => return .error st
      | .ok va =>
        match ← mapKernel ans va base len (VMM_WRITE ||| VMM_CACHE_UC) with
        | .ok => return .ok (va + (pa - base))
        | st => do
          vmmKvaFree va len
          return .error st

/-- The loop of `vmmUnmapMmio` that checks the pages of a range, over the number of pages left. -/
def checkMmioPages (base : ℕ) : ℕ → ℕ → VmM Unit
  | 0, _ => pure ()
  | n + 1, off => do
    match ← lookupKernel (base + off) with
    | .error _ => throw (.mmioPage (base + off))
    | .ok (_, f) =>
      if f = VMM_WRITE ||| VMM_CACHE_UC then checkMmioPages base n (off + KVA_PAGE_SIZE)
      else throw (.mmioPage (base + off))

/-- The lookup of `vmmUnmapMmio` on one side of a range, which must find nothing. -/
def checkMmioGuard (guard va size : ℕ) : VmM Unit := do
  match ← lookupKernel guard with
  | .error .errNotFound => pure ()
  | _ => throw (.mmioNotRange va size)

def vmmUnmapMmio (va size : ℕ) : VmM Unit := do
  let base := pageFloor va
  let «end» := (va + size) % 2^64
  if size = 0 ∨ «end» < va ∨ «end» > 2^64 - 1 - (KVA_PAGE_SIZE - 1) then
    throw (.mmioBadRange va size)
  else do
    let len := pageFloor («end» + KVA_PAGE_SIZE - 1) - base
    if !vmmRangeInKva base len ∨ base - KVA_GUARD_SIZE < VM_KVA_BASE ∨
        base + len + KVA_GUARD_SIZE > VM_KVA_END then throw (.mmioNotRange va size)
    else do
      checkMmioGuard (base - KVA_GUARD_SIZE) va size
      checkMmioGuard (base + len) va size
      checkMmioPages base (len / KVA_PAGE_SIZE) 0
      match ← unmapKernel base len with
      | .ok => vmmKvaFree base len
      | _ => throw (.mmioNotMapping va size)

/-! ## Frames and records -/

/-- `pmmAllocPages` at order zero: the frame. -/
def pmmAllocFrame : VmM (Option ℕ) := do
  let s ← get
  match ans.frames s with
  | none => return none
  | some pfn => do
    set { s with slab := { s.slab with
      pages := Function.update s.slab.pages pfn (allocatedHead (s.slab.pages pfn) 0) } }
    return some pfn

/-- Writes the record of a frame. -/
def modifyPage (pfn : ℕ) (f : Page → Page) : VmM Unit :=
  modify fun s => { s with slab := { s.slab with
    pages := Function.update s.slab.pages pfn (f (s.slab.pages pfn)) } }

/-- `pmmFreePages` at order zero: the frame goes to the per-CPU cache. -/
def pmmFreeFrame (pfn : ℕ) : VmM Unit := do
  let s ← get
  if !pmmPfnValid s.slab.spans pfn then throw (.pmm (.invalidPage, pfn))
  else match pmmValidateState s.slab.pages pfn 0 with
    | .error bug => throw (.pmm bug)
    | .ok pfn => modifyPage pfn fun page => { page with state := .pcp, order := 0, refcount := 0 }

/-- `pmmPhysToPage`: the frame of an address, if it has a record. -/
def pmmPhysToPage (s : VmState) (phys : ℕ) : Option ℕ :=
  if pmmPfnValid s.slab.spans (phys >>> 12) then some (phys >>> 12) else none

/-- Takes `vmalloc`'s mark off a frame and frees it. -/
def vmallocFreeFrame (pfn : ℕ) : VmM Unit := do
  modifyPage pfn fun page =>
    { page with flags := page.flags &&& (0xFFFF - PAGE_F_OWNER_MASK), privateWord := 0 }
  pmmFreeFrame pfn

/-- Writes an area record. -/
def modifyArea (area : ℕ) (f : VmallocArea → VmallocArea) : VmM Unit :=
  modify fun s => { s with areas := Function.update s.areas area (f (s.areas area)) }

/-- `slabAlloc` from the cache of area records. -/
def areaAlloc : VmM (Option ℕ) := do
  let s ← get
  match slabAlloc (ans.slabs s) s.slab s.vmallocAreaCache 0 with
  | .error bug => throw (.slab bug)
  | .ok (r, slab) => do
    set { s with slab := slab }
    return r

/-- `slabFree` of an area record. -/
def areaFree (area : ℕ) : VmM Unit := do
  let s ← get
  let (r, slab) := exec (slabFree s.vmallocAreaCache area) s.slab
  set { s with slab := slab }
  match r with
  | .error bug => throw (.slab bug)
  | .ok _ => return ()

/-! ## `vmalloc.c` -/

/-- `vmallocInit`: the cache of area records. -/
def vmallocInit (s : SlabState) (debug : Bool) : Except Status (ℕ × SlabState) :=
  slabCacheCreateInternal s sizeofVmallocArea 8 false 0 debug

/-- What `vmallocUnwind` and `vfree` do with a page that is mapped: it is unmapped, and its frame is
freed. -/
def vmallocReleasePage (pageVa pa : ℕ) : VmM Unit := do
  match ← unmapKernel pageVa KVA_PAGE_SIZE with
  | .ok => do
    match pmmPhysToPage (← get) pa with
    | none => throw .nullPage
    | some pfn => vmallocFreeFrame pfn
  | _ => throw (.vmalloc .corrupt)

/-- The loop of `vmallocUnwind`, over the number of pages left. -/
def vmallocUnwindLoop (va : ℕ) : ℕ → ℕ → VmM Unit
  | 0, _ => pure ()
  | n + 1, i => do
    match ← lookupKernel (va + i * KVA_PAGE_SIZE) with
    | .ok (pa, _) => do
      vmallocReleasePage (va + i * KVA_PAGE_SIZE) pa
      vmallocUnwindLoop va n (i + 1)
    | .error _ => vmallocUnwindLoop va n (i + 1)

/-- The end of `vmallocUnwind` and of `vfree`: the reservation and the record go back. -/
def vmallocReleaseArea (area va mapSize : ℕ) : VmM Unit := do
  vmmKvaFree va mapSize
  modifyArea area fun a => { a with magic := 0 }
  areaFree area

def vmallocUnwind (area va upTo mapSize : ℕ) : VmM Unit := do
  vmallocUnwindLoop va upTo 0
  vmallocReleaseArea area va mapSize

/-- The loop of `vmalloc`, over the number of pages left. It tells whether all pages were mapped. -/
def vmallocLoop (area va mapSize : ℕ) : ℕ → ℕ → VmM Bool
  | 0, _ => return true
  | n + 1, i => do
    match ← pmmAllocFrame ans with
    | none => do
      vmallocUnwind area va i mapSize
      return false
    | some pfn => do
      modifyPage pfn fun page =>
        { page with flags := page.flags ||| PAGE_F_VMALLOC, privateWord := area }
      match ← mapKernel ans (va + i * KVA_PAGE_SIZE) (pfn <<< 12) KVA_PAGE_SIZE VMM_WRITE with
      | .ok => do
        modifyArea area fun a => { a with pages := i + 1 }
        vmallocLoop area va mapSize n (i + 1)
      | _ => do
        vmallocFreeFrame pfn
        vmallocUnwind area va i mapSize
        return false

/-- `vmalloc`: the address of the area, or `0`. -/
def vmalloc (size : ℕ) (flags : BitVec 32) : VmM ℕ :=
  if flags &&& ~~~VMALLOC_FLAGS_VALID ≠ 0 then throw (.vmalloc .badFlags)
  else if size = 0 then throw (.vmalloc .badSize)
  else if size > VMALLOC_MAX_SIZE then return 0
  else do
    let pages := (size + 4095) / 4096
    let mapSize := pages * 4096
    match ← areaAlloc ans with
    | none => return 0
    | some area => do
      modifyArea area fun a => { a with magic := VMALLOC_AREA_MAGIC, pages := 0 }
      match ← vmmKvaAlloc mapSize with
      | .error _ => do
        areaFree area
        return 0
      | .ok va => do
        modifyArea area fun a => { a with va := va }
        if ← vmallocLoop ans area va mapSize pages 0 then
          modify fun s => { s with
            vmallocAreaCountValue := s.vmallocAreaCountValue + 1
            vmallocPageCountValue := s.vmallocPageCountValue + pages }
          return va
        else return 0

/-- The loop of `vfree` that checks the pages of the area, over the number of pages left. -/
def vfreeCheckLoop (area va : ℕ) : ℕ → ℕ → VmM Unit
  | 0, _ => pure ()
  | n + 1, i => do
    match ← lookupKernel (va + i * KVA_PAGE_SIZE) with
    | .error _ => throw (.vmalloc .notMapped)
    | .ok (pa, _) => do
      let s ← get
      match pmmPhysToPage s pa with
      | none => throw (.vmalloc .corrupt)
      | some pfn =>
        if (s.slab.pages pfn).flags &&& PAGE_F_VMALLOC = 0 ∨
            (s.slab.pages pfn).privateWord ≠ area then throw (.vmalloc .corrupt)
        else vfreeCheckLoop area va n (i + 1)

/-- The loop of `vfree` that frees the pages of the area, over the number of pages left. A lookup
that fails would leave `pa` as it was; the first loop has excluded it. -/
def vfreeLoop (va : ℕ) : ℕ → ℕ → VmM Unit
  | 0, _ => pure ()
  | n + 1, i => do
    match ← lookupKernel (va + i * KVA_PAGE_SIZE) with
    | .error _ => throw (.vmalloc .corrupt)
    | .ok (pa, _) => do
      vmallocReleasePage (va + i * KVA_PAGE_SIZE) pa
      vfreeLoop va n (i + 1)

/-- The part of `vfree` after the area is known. -/
def vfreeArea (area va pages : ℕ) : VmM Unit := do
  let mapSize := pages * 4096
  vfreeCheckLoop area va pages 0
  match ← lookupKernel (va + mapSize) with
  | .ok _ => throw (.vmalloc .corrupt)
  | .error _ => do
    vfreeLoop va pages 0
    vmallocReleaseArea area va mapSize
    modify fun s => { s with
      vmallocAreaCountValue := s.vmallocAreaCountValue - 1
      vmallocPageCountValue := s.vmallocPageCountValue - pages }

def vfree (va : ℕ) : VmM Unit :=
  if va = 0 then return ()
  else if va % 4096 ≠ 0 ∨ va < VM_KVA_BASE ∨ va ≥ VM_KVA_END then throw (.vmalloc .badPointer)
  else do
    match ← lookupKernel va with
    | .error _ => throw (.vmalloc .notMapped)
    | .ok (pa0, _) => do
      let s ← get
      match pmmPhysToPage s pa0 with
      | none => throw (.vmalloc .notVmalloc)
      | some page0 =>
        let area := (s.slab.pages page0).privateWord
        if (s.slab.pages page0).flags &&& PAGE_F_VMALLOC = 0 then throw (.vmalloc .notVmalloc)
        else if area = 0 ∨ (s.areas area).magic ≠ VMALLOC_AREA_MAGIC then throw (.vmalloc .corrupt)
        else if (s.areas area).va ≠ va then throw (.vmalloc .notHead)
        else vfreeArea area va (s.areas area).pages

end Bongos.Mm
