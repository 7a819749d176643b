import Bongos.Bits
import Bongos.Status
import Mathlib.Data.List.Basic

/-!
# The core of the interrupt code

`irq-core.c`: the bitmap of the interrupt vectors, the entries of the IOAPIC redirection table, and
the resolution of a legacy ISA interrupt through the overrides of the MADT.
-/

namespace Bongos.Arch

def IRQ_VECTOR_FIRST_DYNAMIC : ℕ := 48

def IRQ_VECTOR_LAST_DYNAMIC : ℕ := 239

def IRQ_VECTOR_COUNT : ℕ := 256

def IRQ_ISA_COUNT : ℕ := 16

/-! ## The vectors -/

/-- `IrqVectorMap`: a set bit is a vector that cannot be allocated. -/
structure IrqVectorMap where
  used : ℕ → BitVec 64

/-- `m->used[v / 64] |= 1ULL << (v % 64)`. -/
def IrqVectorMap.setUsed (m : IrqVectorMap) (v : ℕ) : IrqVectorMap :=
  ⟨setBit m.used (v / 64) (v % 64)⟩

def irqVectorMapInit : IrqVectorMap :=
  let m : IrqVectorMap := ⟨fun _ => 0#64⟩
  let m := (List.range IRQ_VECTOR_FIRST_DYNAMIC).foldl IrqVectorMap.setUsed m
  (List.range' (IRQ_VECTOR_LAST_DYNAMIC + 1)
    (IRQ_VECTOR_COUNT - (IRQ_VECTOR_LAST_DYNAMIC + 1))).foldl IrqVectorMap.setUsed m

/-- `irqVectorMapAlloc`: the vector, if there is a free one. -/
def irqVectorMapAlloc (m : IrqVectorMap) : Status × Option ℕ × IrqVectorMap :=
  let dynamic := List.range' IRQ_VECTOR_FIRST_DYNAMIC
    (IRQ_VECTOR_LAST_DYNAMIC + 1 - IRQ_VECTOR_FIRST_DYNAMIC)
  match dynamic.find? fun v => m.used (v / 64) &&& 1#64 <<< (v % 64) = 0 with
  | some v => (.ok, some v, m.setUsed v)
  | none => (.errNoMemory, none, m)

def irqVectorMapIsAllocated (m : IrqVectorMap) (v : ℕ) : Bool :=
  if v < IRQ_VECTOR_FIRST_DYNAMIC ∨ v > IRQ_VECTOR_LAST_DYNAMIC then false
  else m.used (v / 64) &&& 1#64 <<< (v % 64) ≠ 0

def irqVectorMapFree (m : IrqVectorMap) (v : ℕ) : Status × IrqVectorMap :=
  if ¬ irqVectorMapIsAllocated m v then (.errInvalid, m)
  else (.ok, ⟨clearBit m.used (v / 64) (v % 64)⟩)

/-- The vectors that can be allocated. -/
def DynamicVector (v : ℕ) : Prop := IRQ_VECTOR_FIRST_DYNAMIC ≤ v ∧ v ≤ IRQ_VECTOR_LAST_DYNAMIC

section

variable (m : IrqVectorMap)

include m

/-- An allocated vector is a dynamic one whose bit is set. -/
theorem irqVectorMapIsAllocated_iff (v : ℕ) :
    irqVectorMapIsAllocated m v = true ↔ DynamicVector v ∧ bitTest m.used v = true := by
  have hmod : v % 64 < 64 := Nat.mod_lt v (by decide)
  unfold irqVectorMapIsAllocated DynamicVector
  split_ifs with hout
  · simp only [false_iff, not_and]
    omega
  · rw [decide_eq_true_iff, and_one_shiftLeft_ne_zero _ hmod, bitTest]
    exact ⟨fun h => ⟨by omega, h⟩, fun h => h.2⟩

theorem irqVectorMapIsAllocated_setUsed {v : ℕ} (hv : DynamicVector v) (w : ℕ) :
    irqVectorMapIsAllocated (m.setUsed v) w = true ↔
      w = v ∨ irqVectorMapIsAllocated m w = true := by
  have hv' : v / 64 * 64 + v % 64 = v := Nat.div_add_mod' v 64
  rw [irqVectorMapIsAllocated_iff, irqVectorMapIsAllocated_iff, IrqVectorMap.setUsed,
    bitTest_setBit _ (Nat.mod_lt v (by decide)), hv', Bool.or_eq_true, beq_iff_eq]
  constructor
  · rintro ⟨hw, rfl | hbit⟩
    · exact .inl rfl
    · exact .inr ⟨hw, hbit⟩
  · rintro (rfl | ⟨hw, hbit⟩)
    · exact ⟨hv, .inl rfl⟩
    · exact ⟨hw, .inr hbit⟩

/-- What an allocation does: the vector was free, and now it is not. -/
theorem irqVectorMapAlloc_cases : irqVectorMapAlloc m = (.errNoMemory, none, m) ∨
      ∃ v, DynamicVector v ∧ irqVectorMapIsAllocated m v = false ∧
        irqVectorMapAlloc m = (.ok, some v, m.setUsed v) := by
  unfold irqVectorMapAlloc
  dsimp only
  split
  · next v hfind =>
    have hmem := List.mem_of_find?_eq_some hfind
    have hfree := List.find?_some hfind
    rw [List.mem_range'_1] at hmem
    unfold IRQ_VECTOR_FIRST_DYNAMIC IRQ_VECTOR_LAST_DYNAMIC at hmem
    refine .inr ⟨v, ?_, ?_, rfl⟩
    · unfold DynamicVector IRQ_VECTOR_FIRST_DYNAMIC IRQ_VECTOR_LAST_DYNAMIC
      omega
    · unfold irqVectorMapIsAllocated
      rw [decide_eq_true_iff] at hfree
      simp [hfree]
  · exact .inl rfl

/-- What a free does. -/
theorem irqVectorMapFree_cases (v : ℕ) : irqVectorMapFree m v = (.errInvalid, m) ∨
      irqVectorMapIsAllocated m v = true ∧ ∃ m', irqVectorMapFree m v = (.ok, m') ∧
        ∀ w, irqVectorMapIsAllocated m' w = true ↔ w ≠ v ∧ irqVectorMapIsAllocated m w = true := by
  unfold irqVectorMapFree
  split_ifs with halloc
  · refine .inr ⟨halloc, _, rfl, fun w => ?_⟩
    have hv' : v / 64 * 64 + v % 64 = v := Nat.div_add_mod' v 64
    rw [irqVectorMapIsAllocated_iff, irqVectorMapIsAllocated_iff,
      bitTest_clearBit _ (Nat.mod_lt v (by decide)), hv', Bool.and_eq_true, bne_iff_ne]
    exact and_left_comm
  · exact .inl rfl

end

/-! ## Legacy interrupts -/

/-- `AcpiIso`: an interrupt source override of the MADT. -/
structure AcpiIso where
  bus : BitVec 8
  source : BitVec 8
  gsi : BitVec 32
  flags : BitVec 16
  deriving DecidableEq

structure IrqIsaRoute where
  gsi : BitVec 32
  activeLow : Bool
  level : Bool
  deriving DecidableEq

/-- The first loop of `irqCoreIsaRoute`: the overrides that count, and the warning. -/
def acceptIsos (isos : List AcpiIso) : List AcpiIso × Bool :=
  isos.foldl (fun (acc, warn) o =>
    if o.bus ≠ 0 ∨ o.source.toNat ≥ IRQ_ISA_COUNT then (acc, true)
    else if acc.any fun a => a.source = o.source ∨ a.gsi = o.gsi then (acc, true)
    else (acc ++ [o], warn)) ([], false)

/-- `irqCoreIsaRoute`, with the warning that `outWarn` receives, if it is written. -/
def irqCoreIsaRoute (isos : List AcpiIso) (irq : ℕ) : Status × Option IrqIsaRoute × Option Bool :=
  if irq ≥ IRQ_ISA_COUNT then (.errInvalid, none, none)
  else
    let (acc, warn) := acceptIsos isos
    let found := acc.filter fun a => a.source.toNat = irq
    if found.isEmpty ∧ acc.any fun a => a.gsi.toNat = irq then (.errNotFound, none, some warn)
    else
      -- The source keeps the last match; the accepted overrides have different sources.
      let (gsi, flags) := match found.getLast? with
        | some a => (a.gsi, a.flags)
        | none => (BitVec.ofNat 32 irq, 0)
      let pol := flags &&& 3
      let trig := flags >>> 2 &&& 3
      (.ok, some ⟨gsi, pol = 3, trig = 3⟩, some (warn || pol = 2 || trig = 2))

/-- `irqCoreRteEncode`: an entry of the redirection table. -/
def irqCoreRteEncode (vector : BitVec 8) (activeLow level masked : Bool) (dest : BitVec 8) :
    BitVec 64 :=
  let e : BitVec 64 := vector.setWidth 64
  let e := if activeLow then e ||| 1#64 <<< 13 else e
  let e := if level then e ||| 1#64 <<< 15 else e
  let e := if masked then e ||| 1#64 <<< 16 else e
  e ||| dest.setWidth 64 <<< 56

end Bongos.Arch
