import Bongos.Mm.Early
import Bongos.Mm.PmmPartition

/-!
# The boot of the physical memory manager

The end of `pmmInit`, which hands what the bump allocator left of the usable ranges to the buddy
core, the two reclaims that follow later, and the self-check of `pmmPrintMeminfo`. Zeroing the
reclaimed pages and the log lines are not modelled. `reclaimedPages` and the two `reclaimDone` flags
are the statics of `pmm.c`.
-/

namespace Bongos.Mm

open Bongos.Core
open List (Ico)

/-- The globals of `pmm.c` and `early.c` once the `Page` array is mapped; `pmmMap` is
`early.earlyMap`. -/
structure PmmBoot where
  pmm : Pmm
  early : PmmEarly
  reclaimedPages : ℕ
  acpiReclaimedPages : ℕ
  loaderReclaimDone : Bool
  acpiReclaimDone : Bool

/-! ## Statistics -/

/-- `PmmStats`, without the two counts of the pages behind the `Page` array. -/
structure PmmStats where
  typePages : ℕ → ℕ
  usablePages : ℕ
  lowReservedPages : ℕ
  unmappedPages : ℕ
  reclaimedPages : ℕ
  acpiReclaimedPages : ℕ
  earlyPages : ℕ
  zoneManagedPages : PmmZoneId → ℕ
  zoneFreePages : PmmZoneId → ℕ
  managedPages : ℕ
  freePages : ℕ
  cachedPages : ℕ
  allocatedPages : ℕ

def pmmGetStats (b : PmmBoot) : PmmStats :=
  let zoneFree z := (b.pmm.zones z).freePages + (b.pmm.cache z).count
  let managed := (b.pmm.zones .dma32).managedPages + (b.pmm.zones .normal).managedPages
  let free := zoneFree .dma32 + zoneFree .normal
  { typePages := b.early.earlyMap.typePages
    usablePages := b.early.earlyMap.typePages BOOT_MEM_USABLE.toNat
    lowReservedPages := b.early.earlyMap.lowReservedPages
    unmappedPages := b.early.earlyMap.unmappedPages
    reclaimedPages := b.reclaimedPages
    acpiReclaimedPages := b.acpiReclaimedPages
    earlyPages := b.early.earlyUsedPages
    zoneManagedPages z := (b.pmm.zones z).managedPages
    zoneFreePages := zoneFree
    managedPages := managed
    freePages := free
    cachedPages := (b.pmm.cache .dma32).count + (b.pmm.cache .normal).count
    allocatedPages := managed - free }

/-- `pmmPrintMeminfo`: the self-check. -/
def pmmPrintMeminfo (b : PmmBoot) : Except PmmPanic Unit :=
  let s := pmmGetStats b
  if s.managedPages + s.earlyPages + s.lowReservedPages + s.unmappedPages =
      s.usablePages + s.reclaimedPages then .ok ()
  else .error (.meminfo s.usablePages s.reclaimedPages s.managedPages s.earlyPages
    s.lowReservedPages s.unmappedPages)

/-! ## Handing memory to the buddy core -/

/-- One round of the last loop of `pmmInit`. -/
def addUsable (s : Pmm) (u : PmmUsableRange) : Except PmmPanic Pmm :=
  if u.startPfn < u.endPfn then
    match pmmAddFreeRange s (u.startPfn <<< 12) ((u.endPfn - u.startPfn) <<< 12) with
    | (.ok, s) => .ok s
    | (st, _) => .error (.initAddFailed st)
  else .ok s

/-- `pmmInit` from the call of `pmmEarlySeal` on, over the mapped `Page` array. -/
def pmmInitZones (early : PmmEarly) (pages : PageArray) : Except PmmPanic PmmBoot := do
  let early := pmmEarlySeal early
  let s := Pmm.init early.earlyMap.spans pages early.earlyMap.maxPfn
  let s ← early.earlyMap.usable.foldlM addUsable s
  let b : PmmBoot := ⟨s, early, 0, 0, false, false⟩
  pmmPrintMeminfo b
  return b

def pmmRangeAllReserved (s : Pmm) (base length : ℕ) : Bool :=
  let startPfn := base >>> 12
  let endPfn := startPfn + (length >>> 12)
  (List.range' startPfn (endPfn - startPfn)).all fun p =>
    pmmPfnValid s.spans p && (s.pages p).state == .reserved

/-- `pmmReclaimPiece`: the number of pages freed. -/
def pmmReclaimPiece (s : Pmm) (base length : ℕ) : Except PmmPanic (ℕ × Pmm) :=
  if length = 0 then .ok (0, s)
  else if !pmmRangeAllReserved s base length then
    .error (.reclaimNotReserved base (base + length))
  else match pmmAddFreeRange s base length with
    | (.ok, s) => .ok (length >>> 12, s)
    | (st, _) => .error (.reclaimAddFailed base length st)

/-- One round of the loop of `pmmReclaimRanges`, with the pages freed so far. -/
def reclaimRound (acc : ℕ × Pmm) (r : PmmReclaimRange) : Except PmmPanic (ℕ × Pmm) :=
  match pmmReclaimClip r with
  | none => .ok acc
  | some (base, «end») => do
    let (pages, s) ← pmmReclaimPiece acc.2 base («end» - base)
    return (acc.1 + pages, s)

/-- `pmmReclaimRanges`: the pages freed. -/
def pmmReclaimRanges (s : Pmm) (ranges : List PmmReclaimRange) : Except PmmPanic (ℕ × Pmm) :=
  ranges.foldlM reclaimRound (0, s)

/-- What the two reclaims share: the checks before and after the loop. -/
def reclaimChecked (done tablesActive : Bool) (s : Pmm) (ranges : List PmmReclaimRange)
    (total : ℕ) : Except PmmPanic (ℕ × Pmm) :=
  if done then .error .reclaimTwice
  else if !tablesActive then .error .tablesInactive
  else do
    let (reclaimed, s) ← pmmReclaimRanges s ranges
    if reclaimed > total then .error (.reclaimTooMany reclaimed total) else .ok (reclaimed, s)

def pmmReclaimLoaderMemory (tablesActive : Bool) (b : PmmBoot) : Except PmmPanic PmmBoot := do
  let (reclaimed, s) ← reclaimChecked b.loaderReclaimDone tablesActive b.pmm
    b.early.earlyMap.loaderReclaim (b.early.earlyMap.typePages BOOT_MEM_LOADER_RECLAIM.toNat)
  return { b with
    pmm := s
    reclaimedPages := b.reclaimedPages + reclaimed
    loaderReclaimDone := true }

def pmmReclaimAcpiMemory (tablesActive : Bool) (b : PmmBoot) : Except PmmPanic PmmBoot := do
  let (reclaimed, s) ← reclaimChecked b.acpiReclaimDone tablesActive b.pmm
    b.early.earlyMap.acpiReclaim (b.early.earlyMap.typePages BOOT_MEM_ACPI_RECLAIM.toNat)
  return { b with
    pmm := s
    reclaimedPages := b.reclaimedPages + reclaimed
    acpiReclaimedPages := reclaimed
    acpiReclaimDone := true }

end Bongos.Mm
