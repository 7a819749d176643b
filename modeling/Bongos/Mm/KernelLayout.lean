import Mathlib.Algebra.Group.Nat.Defs

/-!
# The kernel's virtual address space

The regions of ARCHITECTURE §6.1 that the memory managers share, from `bootinfo.h`, `vmm.h`, and
`kva-internal.h`.
-/

namespace Bongos.Mm

/-- `BOOTINFO_HHDM_BASE`: the start of the direct map. -/
def BOOTINFO_HHDM_BASE : ℕ := 0xFFFF800000000000

/-- `BOOTINFO_HHDM_SIZE`: the direct map is 64 TiB. -/
def BOOTINFO_HHDM_SIZE : ℕ := 0x0000400000000000

/-- `VM_KVA_BASE`: the start of the kernel virtual area. -/
def VM_KVA_BASE : ℕ := 0xFFFFC00000000000

/-- `VM_KVA_END`: the end of the kernel virtual area. -/
def VM_KVA_END : ℕ := 0xFFFFE00000000000

def KVA_PAGE_SIZE : ℕ := 4096

/-- `KVA_GUARD_SIZE`: one unmapped page on each side of a reservation. -/
def KVA_GUARD_SIZE : ℕ := 4096

end Bongos.Mm
