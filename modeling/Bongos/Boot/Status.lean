import Bongos.Bits

/-!
# The loader's common code

`BootStatus`, the error codes of `boot/common` (`boot-status.h`), and the rounding helpers of
`bootmem.h`.
-/

namespace Bongos.Boot

inductive BootStatus where
  | ok
  | errElfHeader
  | errElfPhdr
  | errElfSegment
  | errElfWx
  | errElfRange
  | errElfEntry
  | errNoMemory
  | errPtConflict
  | errMemmapCapacity
  | errMemmapOverlay
  | errCfg
  | errNotMapped
  | errPtUnaligned
  | errFbUnsupported
  | errIo
  | errGpt
  | errFat
  | errNotFound
  | errTooLarge
  | errElfReloc
  deriving DecidableEq

/-- `bootAlignUp`, for a power of two. -/
def bootAlignUp (x align : BitVec 64) : BitVec 64 := (x + (align - 1)) &&& ~~~ (align - 1)

/-- `bootAlignDown`, for a power of two. -/
def bootAlignDown (x align : BitVec 64) : BitVec 64 := x &&& ~~~ (align - 1)

/-- The mask of a page clears the low twelve bits. -/
theorem toNat_and_pageMask (x : BitVec 64) :
    (x &&& ~~~ (4096#64 - 1)).toNat = x.toNat / 4096 * 4096 := by
  have hmask : (~~~ (4096#64 - 1)).toNat = 2^64 - 2^12 := by decide
  exact (BitVec.toNat_and _ _).trans (hmask ▸ land_two_pow_sub (by decide) x.isLt)

theorem toNat_bootAlignDown (x : BitVec 64) :
    (bootAlignDown x 4096).toNat = x.toNat / 4096 * 4096 :=
  toNat_and_pageMask x

/-- Rounding up to a page gives the next multiple, which can wrap to 0. -/
theorem toNat_bootAlignUp (x : BitVec 64) :
    (bootAlignUp x 4096).toNat = (x.toNat + 4095) % 2^64 / 4096 * 4096 := by
  exact toNat_and_pageMask _

end Bongos.Boot
