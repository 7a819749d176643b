import Bongos.Bits
import Bongos.FallibleState
import Bongos.Status
import Bongos.Mm.BuddyHistory

/-!
# The physical memory manager

`pmm.c` over the buddy core: the two zones, the per-CPU cache of single frames in front of each, and
the public calls `pmmAllocPages`, `pmmFreePages`, `pmmAddFreeRange`, and `pmmDrainLocalCache`. A
`Page *` is the address of a record, as in the source, so a caller can pass an arbitrary one to
`pmmFreePages`; a call that the source ends in `pmmBug` returns the bug. The out-parameter of
`pmmAllocPages` is its result here, and the contents of the frames are not modelled: zeroing a block
and poisoning a freed one change no record of the array besides `PAGE_F_POISONED`, which only debug
builds use.
-/

namespace Bongos.Mm

open Function (update)

open DyadicBlocks (InBlock)

inductive PmmZoneId where
  | dma32
  | normal
  deriving DecidableEq

/-- `PMM_ZONE_DMA32_END_PFN`: 4 GiB in frames. -/
def PMM_ZONE_DMA32_END_PFN : ℕ := 0x100000000 / 2^12

def pmmZoneOfPfn (pfn : ℕ) : PmmZoneId := if pfn < PMM_ZONE_DMA32_END_PFN then .dma32 else .normal

/-- `PmmSpan`: the frames `[startPfn, endPfn)` have `Page` records. -/
structure PmmSpan where
  startPfn : ℕ
  endPfn : ℕ
  deriving DecidableEq

/-- `PmmPcpList`: the frames that the per-CPU cache of a zone holds, and their number. -/
structure PmmPcpList where
  pages : List ℕ
  count : ℕ
  deriving DecidableEq

/-- `PMM_PCP_BATCH`: how many frames a refill or an overflow moves. -/
def PMM_PCP_BATCH : ℕ := 32

/-- `PMM_PCP_HIGH`: the cache size past which a free drains a batch. -/
def PMM_PCP_HIGH : ℕ := 6 * PMM_PCP_BATCH

/-- The globals of `pmm.c`: the spans of `pmmMap`, the `Page` array, the zones, and the caches. -/
structure Pmm where
  spans : List PmmSpan
  pages : PageArray
  zones : PmmZoneId → PmmZone
  cache : PmmZoneId → PmmPcpList

/-- `pmmInit` before any memory is added: both zones and both caches are empty. -/
def Pmm.init (spans : List PmmSpan) (pages : PageArray) (maxPfn : ℕ) : Pmm where
  spans := spans
  pages := pages
  zones
    | .dma32 => buddyZoneInit "DMA32" 0 PMM_ZONE_DMA32_END_PFN
    | .normal => buddyZoneInit "NORMAL" PMM_ZONE_DMA32_END_PFN maxPfn
  cache := fun _ => ⟨[], 0⟩

/-! ## Addresses of records -/

def PAGE_ARRAY_VA : ℕ := 0xFFFFE00000000000

def sizeofPage : ℕ := 64

def pageFromPfn (pfn : ℕ) : ℕ := PAGE_ARRAY_VA + pfn * sizeofPage

def pageToPfn (page : ℕ) : ℕ := (page - PAGE_ARRAY_VA) / sizeofPage

@[simp]
theorem pageToPfn_pageFromPfn (pfn : ℕ) : pageToPfn (pageFromPfn pfn) = pfn := by
  simp [pageToPfn, pageFromPfn, sizeofPage]

/-- The binary search of `pmmPfnValid`, in `spans[lo, hi)`. -/
def pmmPfnValidIn (spans : List PmmSpan) (pfn lo hi : ℕ) : Bool :=
  if lo < hi then
    let mid := lo + (hi - lo) / 2
    let s := spans.getD mid ⟨0, 0⟩
    if pfn < s.startPfn then pmmPfnValidIn spans pfn lo mid
    else if pfn ≥ s.endPfn then pmmPfnValidIn spans pfn (mid + 1) hi
    else true
  else false
termination_by hi - lo

/-- `pmmPfnValid`: the frame has a `Page` record. -/
def pmmPfnValid (spans : List PmmSpan) (pfn : ℕ) : Bool :=
  pmmPfnValidIn spans pfn 0 spans.length

/-! ## Validating a free -/

/-- `PmmBugKind`, the kinds that `pmmValidateForFree` reports. -/
inductive PmmBugKind where
  | invalidPage
  | badOrder
  | misaligned
  | orderMismatch
  | doubleFree
  | notHead
  | reservedFrame
  | ownedPage
  | corruptState
  deriving DecidableEq

def PAGE_F_SLAB : ℕ := 2

def PAGE_F_VMALLOC : ℕ := 4

/-- `PAGE_F_OWNER_MASK`: the slab allocator or `vmalloc` owns the page. -/
def PAGE_F_OWNER_MASK : ℕ := PAGE_F_SLAB ||| PAGE_F_VMALLOC

variable (pages : PageArray)

/-- The first frame of a block whose record carries an ownership flag. -/
def firstOwned (pfn order : ℕ) : Option ℕ :=
  (List.range' pfn (2^order)).find? fun p => (pages p).flags &&& PAGE_F_OWNER_MASK != 0

/-- The `TAIL` case of `pmmValidateForFree`: some aligned frame at or below `pfn` heads a free block
that reaches it. -/
def coveredByFree (pfn : ℕ) : Bool :=
  (List.range PMM_ORDER_COUNT).any fun k =>
    (pages (pfn / 2^k * 2^k)).state = .buddy ∧ k ≤ (pages (pfn / 2^k * 2^k)).order

/-- The byte that a record holds for its state. -/
def PageState.byte : PageState → BitVec 8
  | .reserved => 0
  | .tail => 1
  | .buddy => 2
  | .pcp => 3
  | .allocated => 4

/-- The `switch` of `pmmValidateForFree` on the byte of the state. -/
def pmmValidateByte (state : BitVec 8) (pfn order : ℕ) : Except (PmmBugKind × ℕ) ℕ :=
  if state = PageState.allocated.byte then
    if (pages pfn).order ≠ order then .error (.orderMismatch, pfn)
    else match firstOwned pages pfn order with
      | some p => .error (.ownedPage, p)
      | none => .ok pfn
  else if state = PageState.buddy.byte ∨ state = PageState.pcp.byte then .error (.doubleFree, pfn)
  else if state = PageState.tail.byte then
    if coveredByFree pages pfn then .error (.doubleFree, pfn) else .error (.notHead, pfn)
  else if state = PageState.reserved.byte then .error (.reservedFrame, pfn)
  else .error (.corruptState, pfn)

/-- The `switch` of `pmmValidateForFree` on the state of the block's first frame. -/
def pmmValidateState (pfn order : ℕ) : Except (PmmBugKind × ℕ) ℕ :=
  pmmValidateByte pages (pages pfn).state.byte pfn order

/-- `pmmValidateForFree`: the block's frame number, or the bug that the call reports and the frame
it names. -/
def pmmValidateForFree (s : Pmm) (page order : ℕ) : Except (PmmBugKind × ℕ) ℕ :=
  if page = 0 then .error (.invalidPage, 0)
  else if page < PAGE_ARRAY_VA ∨ (page - PAGE_ARRAY_VA) % sizeofPage ≠ 0 then
    .error (.invalidPage, 0)
  else if !pmmPfnValid s.spans (pageToPfn page) then .error (.invalidPage, pageToPfn page)
  else if order > PMM_MAX_ORDER then .error (.badOrder, pageToPfn page)
  else if pageToPfn page &&& (2^order - 1) ≠ 0 then .error (.misaligned, pageToPfn page)
  else pmmValidateState s.pages (pageToPfn page) order

/-- The `switch` by the state of the record, which is one of the five. -/
theorem pmmValidateState_eq (pfn order : ℕ) : pmmValidateState pages pfn order =
      match (pages pfn).state with
      | .allocated =>
        if (pages pfn).order ≠ order then .error (.orderMismatch, pfn)
        else match firstOwned pages pfn order with
          | some p => .error (.ownedPage, p)
          | none => .ok pfn
      | .buddy | .pcp => .error (.doubleFree, pfn)
      | .tail =>
        if coveredByFree pages pfn then .error (.doubleFree, pfn) else .error (.notHead, pfn)
      | .reserved => .error (.reservedFrame, pfn) := by
  unfold pmmValidateState pmmValidateByte
  cases (pages pfn).state <;> rfl

/-! ## The per-CPU cache -/

/-- Writes the `state` of one frame. -/
def setState (p : ℕ) (s : PageState) : PageArray :=
  relabel pages p s (pages p).order

/-- The refill loop of `pmmCacheAllocLocked`: up to `n` single frames move from the buddy core to
the cache. -/
def pmmCacheRefill (z : PmmZoneId) : ℕ → Pmm → Pmm
  | 0, s => s
  | n + 1, s =>
    match buddyAllocBlock s.pages (s.zones z) 0 with
    | none => s
    | some (pfn, pages, zone) =>
      pmmCacheRefill z n
        { s with
          pages := setState pages pfn .pcp
          zones := update s.zones z zone
          cache := update s.cache z ⟨pfn :: (s.cache z).pages, (s.cache z).count + 1⟩ }

/-- `pmmCacheAllocLocked`: takes the first frame of the cache, after a refill if it is empty. A
cache with a positive count is not empty, so the list's end is never popped. -/
def pmmCacheAllocLocked (s : Pmm) (z : PmmZoneId) : Option ℕ × Pmm :=
  let s := if (s.cache z).count = 0 then pmmCacheRefill z PMM_PCP_BATCH s else s
  if (s.cache z).count = 0 then (none, s)
  else match (s.cache z).pages with
    | [] => (none, s)
    | pfn :: rest =>
      (some pfn, { s with cache := update s.cache z ⟨rest, (s.cache z).count - 1⟩ })

/-- A cached frame `p` goes back to the buddy core, and `rest` is left in the cache. -/
def pmmReleaseCached (s : Pmm) (z : PmmZoneId) (p : ℕ) (rest : List ℕ) : Pmm :=
  let (pages, zone) := buddyFreeBlock (setState s.pages p .tail) (s.zones z) p 0
  { s with
    pages := pages
    zones := update s.zones z zone
    cache := update s.cache z ⟨rest, (s.cache z).count - 1⟩ }

/-- The overflow loop of `pmmCacheFreeLocked`: up to `n` frames, from the back of the cache. -/
def pmmCacheOverflow (z : PmmZoneId) : ℕ → Pmm → Pmm
  | 0, s => s
  | n + 1, s =>
    match (s.cache z).pages.getLast? with
    | none => s
    | some p => pmmCacheOverflow z n (pmmReleaseCached s z p (s.cache z).pages.dropLast)

/-- `pmmCacheFreeLocked`: puts a frame on the front of the cache, and drains a batch from the back
when the cache has grown past its bound. -/
def pmmCacheFreeLocked (s : Pmm) (z : PmmZoneId) (pfn : ℕ) : Pmm :=
  let s := { s with
    pages := update s.pages pfn
      { s.pages pfn with state := .pcp, order := 0, refcount := 0 }
    cache := update s.cache z ⟨pfn :: (s.cache z).pages, (s.cache z).count + 1⟩ }
  if (s.cache z).count > PMM_PCP_HIGH then pmmCacheOverflow z PMM_PCP_BATCH s else s

/-- The loop of `pmmDrainLocalCache` over one cache, from the front; `n` bounds the frames. -/
def pmmDrainZone (z : PmmZoneId) : ℕ → Pmm → Pmm
  | 0, s => s
  | n + 1, s =>
    match (s.cache z).pages with
    | [] => s
    | p :: rest => pmmDrainZone z n (pmmReleaseCached s z p rest)

/-- `pmmDrainLocalCache`: both caches, in the order of the zones. -/
def pmmDrainLocalCache (s : Pmm) : Pmm :=
  let s := pmmDrainZone .dma32 (s.cache .dma32).pages.length s
  pmmDrainZone .normal (s.cache .normal).pages.length s

/-! ## The public calls -/

abbrev PmmFlags := BitVec 32

def PMM_FLAG_DMA32 : PmmFlags := 1

def PMM_FLAG_ZERO : PmmFlags := 2

def PMM_FLAGS_VALID : PmmFlags := PMM_FLAG_DMA32 ||| PMM_FLAG_ZERO

/-- `pmmZoneListFor`: the zones that a request may be served from, in order. -/
def pmmZoneListFor (flags : PmmFlags) : List PmmZoneId :=
  if flags &&& PMM_FLAG_DMA32 ≠ 0 then [.dma32] else [.normal, .dma32]

/-- The attempt of `pmmAllocPages` on one zone. -/
def pmmAllocFrom (s : Pmm) (order : ℕ) (z : PmmZoneId) : Option ℕ × Pmm :=
  if order = 0 then pmmCacheAllocLocked s z
  else match buddyAllocBlock s.pages (s.zones z) order with
    | none => (none, s)
    | some (pfn, pages, zone) =>
      (some pfn, { s with pages := pages, zones := update s.zones z zone })

/-- The loop of `pmmAllocPages` over the zones, up to the first that has a block. -/
def pmmAllocLoop (order : ℕ) : List PmmZoneId → Pmm → Option ℕ × Pmm
  | [], s => (none, s)
  | z :: zs, s =>
    match pmmAllocFrom s order z with
    | (some pfn, s) => (some pfn, s)
    | (none, s) => pmmAllocLoop order zs s

/-- The record of the head of an allocated block, as `pmmAllocPages` writes it. -/
def allocatedHead (page : Page) (order : ℕ) : Page :=
  { page with
    state := .allocated, order := order, refcount := 1, mapcount := 0, object := 0,
    objectIndex := 0, privateWord := 0 }

/-- `pmmAllocPages`: the address of the block's record, or a status. -/
def pmmAllocPages (s : Pmm) (order : ℕ) (flags : PmmFlags) : Except Status ℕ × Pmm :=
  if order > PMM_MAX_ORDER ∨ flags &&& ~~~PMM_FLAGS_VALID ≠ 0 then (.error .errInvalid, s)
  else match pmmAllocLoop order (pmmZoneListFor flags) s with
    | (none, s) => (.error .errNoMemory, s)
    | (some pfn, s) =>
      (.ok (pageFromPfn pfn),
        { s with pages := update s.pages pfn (allocatedHead (s.pages pfn) order) })

/-- A call that may end in `pmmBug`, with what it has written by then. -/
abbrev PmmM := ExceptT (PmmBugKind × ℕ) (StateM Pmm)

def pmmFreePages (page order : ℕ) : PmmM Unit := do
  let s ← get
  match pmmValidateForFree s page order with
  | .error bug => throw bug
  | .ok pfn =>
    let z := pmmZoneOfPfn pfn
    if order = 0 then
      modify fun s => pmmCacheFreeLocked s z pfn
    else
      -- The head goes to `TAIL` before the merge: the merge may leave it inside a larger block.
      modify fun s => { s with
        pages := update s.pages pfn
          { s.pages pfn with state := .tail, order := 0, refcount := 0 } }
      modify fun s =>
        let (pages, zone) := buddyFreeBlock s.pages (s.zones z) pfn order
        { s with pages := pages, zones := update s.zones z zone }

/-- The inner loop of `pmmAddFreeRange`: the order goes down until the block fits in `avail`
frames. -/
def shrinkOrder (avail : ℕ) : ℕ → ℕ
  | 0 => 0
  | k + 1 => if 2^(k + 1) > avail then shrinkOrder avail k else k + 1

/-- The order of the block that `pmmAddFreeRange` frees at `pfn`. -/
def addOrder (pfn endPfn : ℕ) : ℕ :=
  shrinkOrder (endPfn - pfn) (min (if pfn = 0 then PMM_MAX_ORDER else ctz pfn) PMM_MAX_ORDER)

/-- One round of the decomposition loop of `pmmAddFreeRange`. -/
def pmmAddBlock (s : Pmm) (pfn order : ℕ) : Pmm :=
  let z := pmmZoneOfPfn pfn
  let zone := { s.zones z with managedPages := (s.zones z).managedPages + 2^order }
  let (pages, zone) := buddyFreeBlock (markTail s.pages pfn order) zone pfn order
  { s with pages := pages, zones := update s.zones z zone }

/-- The decomposition loop of `pmmAddFreeRange`, from `pfn` to `endPfn`. -/
def pmmAddFrom (s : Pmm) (pfn endPfn : ℕ) : Pmm :=
  if pfn < endPfn then
    pmmAddFrom (pmmAddBlock s pfn (addOrder pfn endPfn)) (pfn + 2^addOrder pfn endPfn) endPfn
  else s
termination_by endPfn - pfn
decreasing_by
  have := Nat.two_pow_pos (addOrder pfn endPfn)
  omega

/-- `pmmAddFreeRange`: hands the frames of `[physBase, physBase + length)` to the buddy core. -/
def pmmAddFreeRange (s : Pmm) (physBase length : ℕ) : Status × Pmm :=
  if (physBase ||| length) &&& 0xFFF ≠ 0 then (.errInvalid, s)
  else if length = 0 then (.ok, s)
  else
    let startPfn := physBase >>> 12
    let endPfn := startPfn + (length >>> 12)
    if endPfn ≤ startPfn then (.errInvalid, s)
    else if (List.range' startPfn (endPfn - startPfn)).any fun p =>
        !pmmPfnValid s.spans p || (s.pages p).state != .reserved then (.errInvalid, s)
    else (.ok, pmmAddFrom s startPfn endPfn)

end Bongos.Mm
