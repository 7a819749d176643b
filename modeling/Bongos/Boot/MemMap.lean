import Bongos.Boot.Status
import Bongos.Core.BootInfo

/-!
# The memory map of the loader

`memmap.c`: the ranges that the firmware reports, of any alignment and overlapping, are normalised
into the map that the kernel gets. Every range is rounded to pages, the end points are sorted, and
the intervals between neighbouring end points are typed by the highest-ranked range that covers
them.
-/

namespace Bongos.Boot

open Bongos.Core

def MEM_MAP_PAGE_SIZE : BitVec 64 := 4096

structure MemMapInput where
  base : BitVec 64
  length : BitVec 64
  type : BitVec 32
  deriving DecidableEq

/-- `memMapRoundInput`: the rounded range, or nothing if the input is dropped. -/
def memMapRoundInput (r : MemMapInput) : Option (BitVec 64 × BitVec 64) :=
  if r.length = 0 then none
  else
    let «end» := r.base + r.length
    if «end» < r.base then none
    else if r.type = BOOT_MEM_USABLE then
      let base := bootAlignUp r.base MEM_MAP_PAGE_SIZE
      if base < r.base then none
      else
        let roundedEnd := bootAlignDown «end» MEM_MAP_PAGE_SIZE
        if roundedEnd ≤ base then none else some (base, roundedEnd)
    else
      let base := bootAlignDown r.base MEM_MAP_PAGE_SIZE
      let roundedEnd := bootAlignUp «end» MEM_MAP_PAGE_SIZE
      if roundedEnd < «end» then none
      else if roundedEnd ≤ base then none else some (base, roundedEnd)

def memMapRank (type : BitVec 32) : ℤ :=
  if type = BOOT_MEM_USABLE then 0
  else if type = BOOT_MEM_LOADER_RECLAIM then 1
  else if type = BOOT_MEM_INITRD then 2
  else if type = BOOT_MEM_KERNEL then 3
  else if type = BOOT_MEM_ACPI_RECLAIM then 4
  else if type = BOOT_MEM_ACPI_NVS then 5
  else if type = BOOT_MEM_RESERVED then 6
  else if type = BOOT_MEM_FRAMEBUFFER then 7
  else if type = BOOT_MEM_BAD then 8
  else -1

/-! ## The end points -/

/-- `scratchPoints[nPoints++] = p`: the points below `nPoints`. The counter has 32 bits, so after
`2^32` points it starts again at the front. -/
def pushPoint (points : List (BitVec 64)) (p : BitVec 64) : List (BitVec 64) :=
  if points.length + 1 = 2^32 then [] else points ++ [p]

variable (input : List MemMapInput)

/-- The first loop of `memMapNormalize`. -/
def collectPoints : List (BitVec 64) :=
  input.foldl (fun points r =>
    match memMapRoundInput r with
    | none => points
    | some (base, «end») => pushPoint (pushPoint points base) «end») []

/-- The inner loop of the insertion sort: `key` moves to the left over the larger points. The sorted
points are listed from the last one down. -/
def insertPoint (key : BitVec 64) : List (BitVec 64) → List (BitVec 64)
  | [] => [key]
  | p :: points => if p > key then p :: insertPoint key points else key :: p :: points

/-- The insertion sort. -/
def sortPoints (points : List (BitVec 64)) : List (BitVec 64) :=
  (points.foldl (fun sorted key => insertPoint key sorted) []).reverse

/-- The loop that keeps one of equal points. -/
def uniquePoints (points : List (BitVec 64)) : List (BitVec 64) :=
  points.foldl (fun unique p => if unique.getLast? = some p then unique else unique ++ [p]) []

/-! ## The sweep -/

/-- The loop over the inputs that types an interval: `bestRank` and `bestType`. -/
def bestCover (segStart segEnd : BitVec 64) : ℤ × BitVec 32 :=
  input.foldl (fun (bestRank, bestType) r =>
    match memMapRoundInput r with
    | none => (bestRank, bestType)
    | some (base, «end») =>
      if base ≤ segStart ∧ segEnd ≤ «end» ∧ memMapRank r.type > bestRank then
        (memMapRank r.type, r.type)
      else (bestRank, bestType)) (-1, 0)

/-- The last region written, if an interval from `segStart` on of the type continues it. -/
def touchingLast (out : List BootMemRegion) (segStart : BitVec 64) (bestType : BitVec 32) :
    Option BootMemRegion :=
  out.getLast?.filter fun last => last.type = bestType ∧ last.base + last.length = segStart

/-- The loop over the intervals, from the first point on, with the regions written so far. -/
def sweepPoints (outCap : ℕ) :
    List (BitVec 64) → List BootMemRegion → BootStatus × List BootMemRegion
  | segStart :: segEnd :: points, out =>
    let (bestRank, bestType) := bestCover input segStart segEnd
    if bestRank < 0 then sweepPoints outCap (segEnd :: points) out
    else
      match touchingLast out segStart bestType with
      | some last =>
        sweepPoints outCap (segEnd :: points)
          (out.dropLast ++ [{ last with length := last.length + (segEnd - segStart) }])
      | none =>
        if out.length ≥ outCap then (.errMemmapCapacity, out)
        else
          sweepPoints outCap (segEnd :: points)
            (out ++ [⟨segStart, segEnd - segStart, bestType, 0⟩])
  | _, out => (.ok, out)

/-- `memMapNormalize`: the status, and the regions `out[0]` up to `out[*nOut - 1]`. -/
def memMapNormalize (outCap : ℕ) : BootStatus × List BootMemRegion :=
  sweepPoints input outCap (uniquePoints (sortPoints (collectPoints input))) []

end Bongos.Boot
