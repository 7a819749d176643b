import Bongos.Mm.KernelLayout
import Bongos.Mm.Pmm

/-!
# The slab allocator

`slab-core.c` and `slab.c`. A cache carves its objects out of slabs, blocks of frames from the
physical memory manager with a header and an index free list in front, and keeps a magazine of
objects before them. Addresses are numbers, a slab is known by the address of its header, and the
registry slot stands for a pointer into `slabCaches`. The memory manager is an argument: each call
of `pmmAllocPages` is answered by `pmm`, and each call of `pmmFreePages` is recorded in `freed`.

The contents of objects are not modelled, so neither are constructors, zeroing, and the redzone and
poison checks of debug builds; the redzones count in the layout. A call that the source ends in
`slabBug` returns the bug.
-/

namespace Bongos.Mm

open Function (update update_self)

open DyadicBlocks (InBlock)

/-! ## Layout -/

def SLAB_MAX_OBJECTS : ℕ := 1024

def SLAB_MAX_ORDER : ℕ := 3

def SLAB_REDZONE_SIZE : ℕ := 16

def sizeofSlab : ℕ := 48

structure SlabLayout where
  order : ℕ
  objsPerSlab : ℕ
  stride : ℕ
  objOffset : ℕ
  rzLeft : ℕ
  deriving DecidableEq

def alignUp32 (v a : ℕ) : ℕ := (v + (a - 1)) &&& (2^32 - 1 - (a - 1))

/-- `slabMinObjOffset`: past the header, the index array, and the left redzone. -/
def slabMinObjOffset (n rzLeft align : ℕ) : ℕ := alignUp32 (sizeofSlab + n * 2 + rzLeft) align

/-- The inner loop of `slabComputeLayout`: the largest number of objects, down from `n`, that
fits. -/
def slabFit (rzLeft align stride slabBytes : ℕ) : ℕ → ℕ
  | 0 => 0
  | n + 1 =>
    if slabMinObjOffset (n + 1) rzLeft align + (n + 1) * stride ≤ slabBytes then n + 1
    else slabFit rzLeft align stride slabBytes n

/-- One round of the outer loop of `slabComputeLayout`. -/
def slabLayoutAt (rzLeft align stride order : ℕ) : Option SlabLayout :=
  let slabBytes := 4096 <<< order
  let n := slabFit rzLeft align stride slabBytes (min (slabBytes / stride) SLAB_MAX_OBJECTS)
  if n ≥ 1 ∧ (n ≥ 4 ∨ order = SLAB_MAX_ORDER) then
    some ⟨order, n, stride, slabMinObjOffset n rzLeft align, rzLeft⟩
  else none

/-- `slabComputeLayout`: the layout at the smallest order with at least four objects, or at the
largest order. -/
def slabComputeLayout (objSize align : ℕ) (debug : Bool) : Option SlabLayout :=
  let rzLeft :=
    if debug then (if align > SLAB_REDZONE_SIZE then align else SLAB_REDZONE_SIZE) else 0
  let rzRight := if debug then SLAB_REDZONE_SIZE else 0
  let stride := alignUp32 (rzLeft + objSize + rzRight) align
  (List.range (SLAB_MAX_ORDER + 1)).findSome? (slabLayoutAt rzLeft align stride)

/-- `slabIndexForOffset`: the slot that starts at the offset. -/
def slabIndexForOffset (layout : SlabLayout) (off : ℕ) : Option ℕ :=
  if layout.stride = 0 ∨ off % layout.stride ≠ 0 then none
  else if off / layout.stride ≥ layout.objsPerSlab then none
  else some (off / layout.stride)

/-! ## Slabs and caches -/

def SLAB_MAGIC : ℕ := 0x51AB51AB51AB51AB

def SLAB_CACHE_MAGIC : ℕ := 0x5CAC5CAC5CAC5CAC

/-- `SLAB_BUFCTL_END`: the last object of a free list. -/
def SLAB_BUFCTL_END : ℕ := 0xFFFF

/-- `SLAB_BUFCTL_BUSY`: an object that is not on the free list. -/
def SLAB_BUFCTL_BUSY : ℕ := 0xFFFE

def SLAB_MAG_MAX_ROUNDS : ℕ := 32

def SLAB_EMPTY_KEEP : ℕ := 1

def SLAB_MAX_CACHES : ℕ := 64

/-- `SlabListKind`: the list of its cache that a slab is on. -/
inductive SlabListKind where
  | onNone
  | onPartial
  | onFull
  | onEmpty
  deriving DecidableEq

/-- `Slab`: the header, with the index array that follows it in memory. -/
structure Slab where
  magic : ℕ
  cache : ℕ
  objBase : ℕ
  objCount : ℕ
  freeCount : ℕ
  freeHead : ℕ
  list : SlabListKind
  order : ℕ
  bufctl : ℕ → ℕ

/-- `SlabMagazine`; `rounds` are the first `count` entries of the array. -/
structure SlabMagazine where
  capacity : ℕ
  batch : ℕ
  allocated : ℤ
  rounds : List ℕ
  deriving DecidableEq

/-- `SlabCache`. The lists `partial`, `full`, and `empty` are `lists` at their kinds; `ctor` says
whether there is a constructor. -/
structure SlabCache where
  magic : ℕ
  objSize : ℕ
  align : ℕ
  ctor : Bool
  flags : BitVec 32
  layout : SlabLayout
  lists : SlabListKind → List ℕ
  slabCount : ℕ
  emptySlabCount : ℕ
  bspMag : SlabMagazine

/-- The globals of `slab.c`, the memory they point into, and the blocks that were returned to the
physical memory manager, as frame and order. -/
structure SlabState where
  caches : ℕ → SlabCache
  inUse : ℕ → Bool
  slabs : ℕ → Slab
  pages : PageArray
  spans : List PmmSpan
  freed : List (ℕ × ℕ)

/-- The answers of `pmmAllocPages` to requests of an order: a frame, or a failure. -/
abbrev PmmAnswers := SlabState → ℕ → Option ℕ

/-- `SlabBugKind`, the kinds that the modelled functions report. -/
inductive SlabBugKind where
  | badPointer
  | vmallocPointer
  | notSlab
  | misaligned
  | wrongCache
  | doubleFree
  | corrupt
  | badFlags
  | cacheBusy
  deriving DecidableEq

variable (s : SlabState)

/-- Writes a slab header. -/
def SlabState.setSlab (a : ℕ) (slab : Slab) : SlabState :=
  { s with slabs := update s.slabs a slab }

/-- Writes a cache. -/
def SlabState.setCache (c : ℕ) (cache : SlabCache) : SlabState :=
  { s with caches := update s.caches c cache }

/-- Writes the entries of a cache's magazine. -/
def SlabState.setRounds (c : ℕ) (rounds : List ℕ) : SlabState :=
  s.setCache c { s.caches c with bspMag := { (s.caches c).bspMag with rounds := rounds } }

def slabSlot (a i : ℕ) : ℕ :=
  (s.slabs a).objBase + i * (s.caches (s.slabs a).cache).layout.stride

/-! ## The index free list -/

/-- `slabCarve`: every object of the slab is on its free list, in order. -/
def slabCarve (slab : Slab) : Slab :=
  { slab with
    bufctl := fun i =>
      if i < slab.objCount then (if i + 1 < slab.objCount then i + 1 else SLAB_BUFCTL_END)
      else slab.bufctl i
    freeHead := if slab.objCount > 0 then 0 else SLAB_BUFCTL_END
    freeCount := slab.objCount }

def slabFreeListPop (slab : Slab) : ℕ × Slab :=
  (slab.freeHead,
    { slab with
      freeHead := slab.bufctl slab.freeHead
      bufctl := update slab.bufctl slab.freeHead SLAB_BUFCTL_BUSY
      freeCount := slab.freeCount - 1 })

def slabFreeListPush (slab : Slab) (index : ℕ) : Slab :=
  { slab with
    bufctl := update slab.bufctl index slab.freeHead
    freeHead := index
    freeCount := slab.freeCount + 1 }

/-! ## Pointers -/

/-- `slabResolvePointer`: the slab and the slot that a pointer is the address of. -/
def slabResolvePointer (addr : ℕ) : Except SlabBugKind (ℕ × ℕ) :=
  if addr ≥ VM_KVA_BASE ∧ addr < VM_KVA_END then .error .vmallocPointer
  else if addr < BOOTINFO_HHDM_BASE ∨ addr - BOOTINFO_HHDM_BASE ≥ BOOTINFO_HHDM_SIZE then
    .error .badPointer
  else
    let pfn := (addr - BOOTINFO_HHDM_BASE) >>> 12
    if !pmmPfnValid s.spans pfn ∨ (s.pages pfn).flags &&& PAGE_F_SLAB = 0 then .error .notSlab
    else
      let a := (s.pages pfn).privateWord
      if a = 0 ∨ (s.slabs a).magic ≠ SLAB_MAGIC then .error .corrupt
      else if addr < (s.slabs a).objBase then .error .misaligned
      else match slabIndexForOffset (s.caches (s.slabs a).cache).layout
          (addr - (s.slabs a).objBase) with
        | none => .error .misaligned
        | some i => .ok (a, i)

/-! ## Growth, release, and the lists of a cache -/

/-- The loop of `slabGrow` that marks the frames of the new slab. -/
def tagPages (pages : PageArray) (pfn order slab : ℕ) : PageArray := fun f =>
  if InBlock f pfn order then
    { pages f with flags := (pages f).flags ||| PAGE_F_SLAB, privateWord := slab }
  else pages f

/-- The header that `slabGrow` writes over whatever was at the address. -/
def newSlab (old : Slab) (layout : SlabLayout) (c a : ℕ) : Slab :=
  slabCarve
    { old with
      magic := SLAB_MAGIC, cache := c, objBase := a + layout.objOffset,
      objCount := layout.objsPerSlab, order := layout.order, list := .onNone }

/-- `slabGrow`: the address of a new slab. -/
def slabGrow (pmm : PmmAnswers) (s : SlabState) (c : ℕ) : Option (ℕ × SlabState) :=
  let layout := (s.caches c).layout
  match pmm s layout.order with
  | none => none
  | some pfn =>
    let a := BOOTINFO_HHDM_BASE + (pfn <<< 12)
    some (a, { s.setSlab a (newSlab (s.slabs a) layout c a) with
      pages := tagPages s.pages pfn layout.order a })

/-- The loop of `slabReleaseToPmm` that unmarks the frames of the slab. -/
def untagPages (pages : PageArray) (pfn order : ℕ) : PageArray := fun f =>
  if InBlock f pfn order then
    { pages f with
      flags := (pages f).flags &&& (0xFFFF - PAGE_F_OWNER_MASK), privateWord := 0 }
  else pages f

def slabReleaseToPmm (a : ℕ) : SlabState :=
  let pfn := (a - BOOTINFO_HHDM_BASE) >>> 12
  { s.setSlab a { s.slabs a with magic := 0 } with
    pages := untagPages s.pages pfn (s.slabs a).order
    freed := (pfn, (s.slabs a).order) :: s.freed }

/-- The list that the number of free objects implies. -/
def slabWant (slab : Slab) : SlabListKind :=
  if slab.freeCount = 0 then .onFull
  else if slab.freeCount = slab.objCount then .onEmpty
  else .onPartial

/-- A slab comes off one list of its cache and goes to the front of another. -/
def moveSlab (cache : SlabCache) (old want : SlabListKind) (a : ℕ) : SlabCache :=
  let lists := update cache.lists old ((cache.lists old).erase a)
  let count := if old = .onEmpty then cache.emptySlabCount - 1 else cache.emptySlabCount
  { cache with
    lists := update lists want (a :: lists want)
    emptySlabCount := if want = .onEmpty then count + 1 else count }

/-- `slabRehomeLocked`: moves a slab to the list that the number of its free objects implies. -/
def slabRehomeLocked (c a : ℕ) : SlabState :=
  let slab := s.slabs a
  if slab.list = slabWant slab then s
  else
    (s.setCache c (moveSlab (s.caches c) slab.list (slabWant slab) a)).setSlab a
      { slab with list := slabWant slab }

/-- `slabReclaimEmptyLocked`: releases empty slabs until at most `keep` are left. -/
def slabReclaimEmptyLocked (s : SlabState) (c keep : ℕ) : SlabState :=
  if (s.caches c).emptySlabCount > keep then
    match (s.caches c).lists .onEmpty with
    -- Not reached: the count is the length of the list.
    | [] => s
    | a :: rest =>
      let s' := s.setCache c
        { s.caches c with
          lists := update (s.caches c).lists .onEmpty rest
          emptySlabCount := (s.caches c).emptySlabCount - 1
          slabCount := (s.caches c).slabCount - 1 }
      slabReclaimEmptyLocked (slabReleaseToPmm s' a) c keep
  else s
termination_by (s.caches c).emptySlabCount
decreasing_by
  simp only [slabReleaseToPmm, SlabState.setSlab, SlabState.setCache, update_self]
  omega

/-- A call that may end in `slabBug`, with what it has written by then. -/
abbrev SlabM := ExceptT (SlabBugKind × ℕ) (StateM SlabState)

/-- `slabPushObjectLocked`: an object goes back to the free list of its slab. -/
def slabPushObjectLocked (c ptr : ℕ) : SlabM Unit := do
  let s ← get
  match slabResolvePointer s ptr with
  | .error _ => throw (.corrupt, ptr)
  | .ok (a, i) =>
    if (s.slabs a).cache ≠ c then throw (.corrupt, ptr)
    else
      modify fun s => s.setSlab a (slabFreeListPush (s.slabs a) i)
      modify fun s => slabRehomeLocked s c a

/-- A loop that returns rounds of the magazine, from round `i` on, to their slabs. The loop of
`slabFreeCommon` clears each entry once its object is back (`clear`), and that of
`slabCacheFlushMagazineLocked` does not. -/
def slabPushRounds (c : ℕ) (clear : Bool) : ℕ → List ℕ → SlabM Unit
  | _, [] => return ()
  | i, ptr :: rest => do
    slabPushObjectLocked c ptr
    modify fun s => if clear then s.setRounds c ((s.caches c).bspMag.rounds.set i 0) else s
    slabPushRounds c clear (i + 1) rest

/-- A new slab goes to the list of empty slabs. -/
def slabAddEmpty (c a : ℕ) : SlabState :=
  (s.setCache c
    { s.caches c with
      lists := update (s.caches c).lists .onEmpty (a :: (s.caches c).lists .onEmpty)
      slabCount := (s.caches c).slabCount + 1
      emptySlabCount := (s.caches c).emptySlabCount + 1 }).setSlab a
    { s.slabs a with list := .onEmpty }

/-- The choice of a slab in `slabRefillLocked`: a partial one, an empty one, or a new one. -/
def slabPick (pmm : PmmAnswers) (s : SlabState) (c : ℕ) : Option (ℕ × SlabState) :=
  match (s.caches c).lists .onPartial with
  | a :: _ => some (a, s)
  | [] =>
    match (s.caches c).lists .onEmpty with
    | a :: _ => some (a, s)
    | [] =>
      match slabGrow pmm s c with
      | none => none
      | some (a, s) => some (a, slabAddEmpty s c a)

/-- The inner loop of `slabRefillLocked`: moves objects of one slab to the magazine. The result is
how many are still needed. -/
def slabTake (c a : ℕ) : ℕ → SlabState → ℕ × SlabState
  | 0, s => (0, s)
  | need + 1, s =>
    if (s.slabs a).freeCount > 0 then
      let (i, slab) := slabFreeListPop (s.slabs a)
      let s' := s.setSlab a slab
      slabTake c a need (s'.setRounds c ((s'.caches c).bspMag.rounds ++ [slabSlot s' a i]))
    else (need + 1, s)

/-- `slabRefillLocked`, with `need` objects to go. A slab that is partial or empty has a free
object, so every round makes progress. -/
def slabRefillLocked (pmm : PmmAnswers) (c need : ℕ) (s : SlabState) : SlabState :=
  if need > 0 then
    match slabPick pmm s c with
    | none => s
    | some (a, s') =>
      let r := slabTake c a need s'
      let s'' := slabRehomeLocked r.2 c a
      if r.1 < need then slabRefillLocked pmm c r.1 s'' else s''
  else s
termination_by need

/-! ## The public calls -/

def KMALLOC_MIN_ALIGN : ℕ := 16

def KMALLOC_MAX_SIZE : ℕ := 8192

def KMALLOC_ZERO : BitVec 32 := 1

def KMALLOC_FLAGS_VALID : BitVec 32 := KMALLOC_ZERO

def SLAB_CACHE_PERMANENT : BitVec 32 := 1

def SLAB_CACHE_KMALLOC : BitVec 32 := 2

/-- The capacity of a new cache's magazine. -/
def magazineCapacity (layout : SlabLayout) : ℕ :=
  let cap := if layout.stride = 0 then 32 else 16384 / layout.stride
  let cap := if cap < 4 then 4 else cap
  if cap > SLAB_MAG_MAX_ROUNDS then SLAB_MAG_MAX_ROUNDS else cap

/-- The cache that `slabCacheCreateInternal` writes to its slot. -/
def newCache (objSize align : ℕ) (ctor : Bool) (extraFlags : BitVec 32) (debug : Bool) :
    SlabCache :=
  let layout := (slabComputeLayout objSize align debug).getD ⟨0, 0, 0, 0, 0⟩
  { magic := SLAB_CACHE_MAGIC, objSize := objSize, align := align, ctor := ctor,
    flags := extraFlags, layout := layout, lists := fun _ => [], slabCount := 0,
    emptySlabCount := 0,
    bspMag := ⟨magazineCapacity layout, magazineCapacity layout / 2, 0, []⟩ }

/-- `slabCacheCreateInternal`: the slot of the new cache. -/
def slabCacheCreateInternal (objSize align : ℕ) (ctor : Bool)
    (extraFlags : BitVec 32) (debug : Bool) : Except Status (ℕ × SlabState) :=
  if objSize = 0 ∨ objSize > KMALLOC_MAX_SIZE then .error .errInvalid
  else
    let align := if align = 0 then KMALLOC_MIN_ALIGN else align
    if align < 8 ∨ align > 4096 ∨ align &&& (align - 1) ≠ 0 then .error .errInvalid
    else match (List.range SLAB_MAX_CACHES).find? fun i => !s.inUse i with
      | none => .error .errNoMemory
      | some slot =>
        .ok (slot, { s.setCache slot (newCache objSize align ctor extraFlags debug) with
          inUse := update s.inUse slot true })

/-- `slabCacheIsLiveLocked`, on a pointer to a slot. -/
def slabCacheIsLiveLocked (c : ℕ) : Bool :=
  c < SLAB_MAX_CACHES && s.inUse c && (s.caches c).magic == SLAB_CACHE_MAGIC

/-- The refill of an empty magazine in `slabAlloc`. -/
def slabTopUp (pmm : PmmAnswers) (s : SlabState) (c : ℕ) : SlabState :=
  if (s.caches c).bspMag.rounds.length = 0 then
    slabRefillLocked pmm c (s.caches c).bspMag.batch s
  else s

/-- `slabAlloc`: an object, or nothing when there is no memory. -/
def slabAlloc (pmm : PmmAnswers) (s : SlabState) (c : ℕ) (flags : BitVec 32) :
    Except (SlabBugKind × ℕ) (Option ℕ × SlabState) :=
  if flags &&& ~~~KMALLOC_FLAGS_VALID ≠ 0 then .error (.badFlags, 0)
  else if flags &&& KMALLOC_ZERO ≠ 0 ∧ (s.caches c).ctor then .error (.badFlags, 0)
  else if !slabCacheIsLiveLocked s c then .error (.corrupt, 0)
  else
    let s := slabTopUp pmm s c
    let mag := (s.caches c).bspMag
    match mag.rounds.getLast? with
    | none => .ok (none, s)
    | some obj =>
      .ok (some obj, s.setCache c { s.caches c with
        bspMag := { mag with rounds := mag.rounds.dropLast, allocated := mag.allocated + 1 } })

/-- The flush of a full magazine in `slabFreeCommon`: the older half goes back to the slabs, and the
rest moves to the front of the array. -/
def slabMakeRoom (c : ℕ) : SlabM Unit := do
  let s ← get
  let mag := (s.caches c).bspMag
  if mag.rounds.length ≥ mag.capacity then
    slabPushRounds c true 0 (mag.rounds.take mag.batch)
    modify fun s => s.setRounds c ((s.caches c).bspMag.rounds.drop mag.batch)
    modify fun s => slabReclaimEmptyLocked s c SLAB_EMPTY_KEEP

def slabFreeCommon (c a i ptr : ℕ) : SlabM Unit := do
  let s ← get
  if (s.slabs a).bufctl i ≠ SLAB_BUFCTL_BUSY ∨ ptr ∈ (s.caches c).bspMag.rounds then
    throw (.doubleFree, ptr)
  else
    slabMakeRoom c
    modify fun s => s.setCache c { s.caches c with
      bspMag := { (s.caches c).bspMag with
        rounds := (s.caches c).bspMag.rounds ++ [ptr]
        allocated := (s.caches c).bspMag.allocated - 1 } }

def slabFree (c obj : ℕ) : SlabM Unit := do
  let s ← get
  if obj = 0 then return ()
  else match slabResolvePointer s obj with
    | .error bug => throw (bug, obj)
    | .ok (a, i) =>
      if (s.slabs a).cache ≠ c then throw (.wrongCache, obj)
      else slabFreeCommon c a i obj

def kfree (ptr : ℕ) : SlabM Unit := do
  let s ← get
  if ptr = 0 then return ()
  else match slabResolvePointer s ptr with
    | .error bug => throw (bug, ptr)
    | .ok (a, i) =>
      if (s.caches (s.slabs a).cache).flags &&& SLAB_CACHE_KMALLOC = 0 then throw (.wrongCache, ptr)
      else slabFreeCommon (s.slabs a).cache a i ptr

def slabCacheFlushMagazineLocked (c : ℕ) : SlabM Unit := do
  let s ← get
  slabPushRounds c false 0 (s.caches c).bspMag.rounds
  modify fun s => s.setRounds c []

def slabCacheShrink (c : ℕ) : SlabM Unit := do
  slabCacheFlushMagazineLocked c
  modify fun s => slabReclaimEmptyLocked s c 0

/-- `slabCacheDestroy`, on a pointer to a slot. -/
def slabCacheDestroy (c : ℕ) : SlabM Unit := do
  let s ← get
  if !slabCacheIsLiveLocked s c then throw (.corrupt, 0)
  else if (s.caches c).flags &&& SLAB_CACHE_PERMANENT ≠ 0 then throw (.cacheBusy, 0)
  else
    slabCacheFlushMagazineLocked c
    modify fun s => slabReclaimEmptyLocked s c 0
    let s ← get
    if (s.caches c).lists .onPartial ≠ [] ∨ (s.caches c).lists .onFull ≠ [] then
      throw (.cacheBusy, 0)
    else
      modify fun s => { s.setCache c { s.caches c with magic := 0 } with
        inUse := update s.inUse c false }

/-- One round of `slabShrinkAll`. -/
def slabShrinkSlot (c : ℕ) : SlabM Unit := do
  let s ← get
  if s.inUse c then slabCacheShrink c else return ()

def slabShrinkAll : SlabM Unit := (List.range SLAB_MAX_CACHES).forM slabShrinkSlot

/-- `SlabCacheStats`, the fields that are computed. -/
structure SlabCacheStats where
  objsPerSlab : ℕ
  slabs : ℕ
  emptySlabs : ℕ
  objsFree : ℕ
  objsCached : ℕ
  objsAllocated : ℕ
  deriving DecidableEq

def slabSumFreeLocked (l : List ℕ) : ℕ := (l.map fun a => (s.slabs a).freeCount).sum

def slabCacheGetStats (c : ℕ) : SlabCacheStats :=
  let cache := s.caches c
  let freeObjs := slabSumFreeLocked s (cache.lists .onPartial) +
    slabSumFreeLocked s (cache.lists .onFull) + slabSumFreeLocked s (cache.lists .onEmpty)
  { objsPerSlab := cache.layout.objsPerSlab
    slabs := cache.slabCount
    emptySlabs := cache.emptySlabCount
    objsFree := freeObjs
    objsCached := cache.bspMag.rounds.length
    objsAllocated := cache.slabCount * cache.layout.objsPerSlab - freeObjs -
      cache.bspMag.rounds.length }

end Bongos.Mm
