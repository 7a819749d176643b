import Bongos.Arch.IrqCore
import Bongos.Run

/-!
# Interrupt vectors, handlers and routes

`irq.c`: who owns a vector, which handler is registered for it, and which interrupt line (GSI) is
routed to it. The tables are functions of the vector, below `IRQ_VECTOR_COUNT`. Pointers are numbers
with `0` for `NULL`. What the IOAPIC and the local APIC answer during a call is an argument of the
call (`Ioapic`), so that every access can fail at every call.
-/

namespace Bongos.Arch

open Function (update)

/-- The entry of a vector without a route. -/
def NO_GSI : BitVec 32 := 0xFFFFFFFF

/-- Polarity of a line, in `flags`. -/
def IRQ_ACTIVE_LOW : BitVec 32 := 1

/-- Trigger mode of a line, in `flags`. -/
def IRQ_LEVEL : BitVec 32 := 2

/-- The handler of a vector and its argument; `NULL` for none. -/
structure IrqSlot where
  handler : ℕ
  ctx : ℕ
  deriving DecidableEq

/-- The state of `irq.c`: of the MADT, only the overrides are used. -/
structure Irq where
  slots : ℕ → IrqSlot
  vectorGsi : ℕ → BitVec 32
  vectorUnmasked : ℕ → Bool
  vectorMap : IrqVectorMap
  depth : ℕ
  inited : Bool
  madtInfo : Option (List AcpiIso)

/-- What the interrupt controllers answer during a call. A read of a redirection entry can give
something else every time. -/
structure Ioapic where
  lapicId : BitVec 32
  ioapicCount : ℕ
  ioapicGsiUsable : BitVec 32 → Bool
  ioapicWriteRte : BitVec 32 → BitVec 64 → Status
  ioapicSetMask : BitVec 32 → Bool → Status
  ioapicReadRte : ℕ → BitVec 32 → Status × BitVec 64

/-- What a call returns: its status, what it stores through its pointer argument, and whether it
logs a warning. -/
structure IrqReply where
  status : Status
  out : Option (BitVec 32)
  warned : Bool
  deriving DecidableEq

/-- A reply that is only a status. -/
abbrev IrqReply.of (status : Status) : IrqReply := ⟨status, none, false⟩

/-- The vectors of the four IPIs and the timer: never allocated, but a handler may be registered. -/
def vectorIsFixed (v : ℕ) : Bool := (v ≥ 0xF0 && v ≤ 0xF3) || v = 0xFE

/-- The state before `irqInit`. -/
def Irq.boot : Irq where
  slots _ := ⟨0, 0⟩
  vectorGsi _ := 0
  vectorUnmasked _ := false
  vectorMap := ⟨fun _ => 0#64⟩
  depth := 0
  inited := false
  madtInfo := none

variable (s : Irq)

/-- `irqInit`, as far as the tables are concerned; a second call panics. -/
def irqInit (madt : Option (List AcpiIso)) : Option Irq :=
  if s.inited then none
  else some
    { s with
      vectorMap := irqVectorMapInit
      vectorGsi := fun _ => NO_GSI
      madtInfo := madt
      inited := true }

/-! ## Vectors and handlers -/

/-- Calls are refused before `irqInit` and inside a handler. -/
def Irq.callable : Bool := s.inited && s.depth = 0

/-- Gives the caller a vector of its own. -/
def irqAllocVector (outVector : ℕ) : IrqReply × Irq :=
  if ¬ s.callable ∨ outVector = 0 then (.of .errInvalid, s)
  else
    let (st, v, vectorMap) := irqVectorMapAlloc s.vectorMap
    (⟨st, v.map (BitVec.ofNat 32), false⟩, { s with vectorMap })

/-- Takes back a vector that has neither a handler nor a route. -/
def irqFreeVector (vector : ℕ) : IrqReply × Irq :=
  if ¬ s.callable then (.of .errInvalid, s)
  else if vector < IRQ_VECTOR_COUNT ∧ (s.slots vector).handler = 0 ∧
    s.vectorGsi vector = NO_GSI then
    let (st, vectorMap) := irqVectorMapFree s.vectorMap vector
    (.of st, { s with vectorMap })
  else (.of .errInvalid, s)

/-- Sets the handler of an allocated or fixed vector that has none. -/
def irqRegister (vector handler ctx : ℕ) : IrqReply × Irq :=
  if ¬ s.callable ∨ handler = 0 ∨ vector ≥ IRQ_VECTOR_COUNT then (.of .errInvalid, s)
  else if (irqVectorMapIsAllocated s.vectorMap vector || vectorIsFixed vector) ∧
      (s.slots vector).handler = 0 then
    (.of .ok, { s with slots := update s.slots vector ⟨handler, ctx⟩ })
  else (.of .errInvalid, s)

/-- Drops the handler, unless a line may still call it. -/
def irqUnregister (vector : ℕ) : IrqReply × Irq :=
  if ¬ s.callable ∨ vector ≥ IRQ_VECTOR_COUNT then (.of .errInvalid, s)
  else if (s.slots vector).handler ≠ 0 ∧
      ¬ (s.vectorGsi vector ≠ NO_GSI ∧ s.vectorUnmasked vector) then
    (.of .ok, { s with slots := update s.slots vector ⟨0, 0⟩ })
  else (.of .errInvalid, s)

/-! ## Routes -/

/-- `vectorOfGsi`: the first vector that the line is routed to. The source's `NO_GSI` for none is no
vector, so it is `none` here. The entries of vectors without a route hold `NO_GSI`, too. -/
def vectorOfGsi (gsi : BitVec 32) : Option ℕ :=
  (List.range IRQ_VECTOR_COUNT).find? fun v => s.vectorGsi v = gsi

variable (io : Ioapic)

/-- Routes a line to an allocated vector. The entry is written masked. -/
def irqRouteGsi (gsi : BitVec 32) (vector : ℕ) (flags : BitVec 32) : IrqReply × Irq :=
  if ¬ s.callable ∨ flags &&& ~~~ (IRQ_ACTIVE_LOW ||| IRQ_LEVEL) ≠ 0 ∨
    vector ≥ IRQ_VECTOR_COUNT then
    (.of .errInvalid, s)
  else if ¬ io.ioapicGsiUsable gsi then (.of .errNotFound, s)
  else if ¬ irqVectorMapIsAllocated s.vectorMap vector ∨ s.vectorGsi vector ≠ NO_GSI ∨
      (vectorOfGsi s gsi).isSome then
    (.of .errInvalid, s)
  else if io.lapicId.toNat > 254 then (.of .errUnsupported, s)
  else
    let rte := irqCoreRteEncode (BitVec.ofNat 8 vector) (flags &&& IRQ_ACTIVE_LOW ≠ 0)
      (flags &&& IRQ_LEVEL ≠ 0) true (io.lapicId.setWidth 8)
    match io.ioapicWriteRte gsi rte with
    | .ok =>
      (.of .ok,
        { s with
          vectorGsi := update s.vectorGsi vector gsi
          vectorUnmasked := update s.vectorUnmasked vector false })
    | st => (.of st, s)

/-- Routes an ISA interrupt, by the overrides of the MADT. -/
def irqRouteIsa (isaIrq vector outGsi : ℕ) : IrqReply × Irq :=
  if ¬ s.callable then (.of .errInvalid, s)
  else if isaIrq ≥ IRQ_ISA_COUNT then (.of .errInvalid, s)
  else
    match s.madtInfo with
    | none => (.of .errNotFound, s)
    | some isos =>
      if io.ioapicCount = 0 then (.of .errNotFound, s)
      else
        match irqCoreIsaRoute isos isaIrq with
        | (.ok, some r, _) =>
          let (reply, s) := irqRouteGsi s io r.gsi vector
            ((if r.activeLow then IRQ_ACTIVE_LOW else 0) ||| if r.level then IRQ_LEVEL else 0)
          if reply.status = .ok ∧ outGsi ≠ 0 then ({ reply with out := some r.gsi }, s)
          else (reply, s)
        | (st, _, _) => (.of st, s)

/-- The body of the two calls below. Only a line with a handler is unmasked. -/
def setGsiMask (gsi : BitVec 32) (masked : Bool) : IrqReply × Irq :=
  if ¬ s.callable then (.of .errInvalid, s)
  else
    match vectorOfGsi s gsi with
    | none => (.of .errNotFound, s)
    | some v =>
      if ¬ masked ∧ (s.slots v).handler = 0 then (.of .errInvalid, s)
      else
        match io.ioapicSetMask gsi masked with
        | .ok =>
          (.of .ok,
            { s with vectorUnmasked := update s.vectorUnmasked v (!masked) })
        | st => (.of st, s)

/-- Lets a routed line interrupt. -/
def irqUnmaskGsi (gsi : BitVec 32) : IrqReply × Irq :=
  setGsiMask s io gsi false

/-- Stops a routed line. -/
def irqMaskGsi (gsi : BitVec 32) : IrqReply × Irq :=
  setGsiMask s io gsi true

/-- The wait of `irqUnrouteGsi` for Remote IRR (bit 14) to clear: the entry read last. -/
def pollRemoteIrr (read : ℕ → Status × BitVec 64) : ℕ → ℕ → BitVec 64 → BitVec 64
  | 0, _, rte => rte
  | n + 1, i, rte =>
    match read i with
    | (.ok, rte) =>
      if rte &&& 1#64 <<< 14 = 0 then rte else pollRemoteIrr read n (i + 1) rte
    | _ => rte

/-- Whether `irqUnrouteGsi` warns: a level pin (bit 15) whose Remote IRR did not clear. -/
def unrouteWarns (read : ℕ → Status × BitVec 64) : Bool :=
  match read 0 with
  | (.ok, rte) =>
    if rte &&& 1#64 <<< 15 ≠ 0 then pollRemoteIrr read 1000000 1 rte &&& 1#64 <<< 14 ≠ 0 else false
  | _ => false

/-- Masks the line, waits until a level interrupt is done, and ends the route. -/
def irqUnrouteGsi (gsi : BitVec 32) : IrqReply × Irq :=
  if ¬ s.callable then (.of .errInvalid, s)
  else
    match vectorOfGsi s gsi with
    | none => (.of .errNotFound, s)
    | some v =>
      match io.ioapicSetMask gsi true with
      | .ok =>
        -- The route is forgotten even if the last write fails.
        (⟨io.ioapicWriteRte gsi (irqCoreRteEncode 0 false false true 0), none,
          unrouteWarns fun i => io.ioapicReadRte i gsi⟩,
          { s with
            vectorGsi := update s.vectorGsi v NO_GSI
            vectorUnmasked := update s.vectorUnmasked v false })
      | st => (.of st, s)

/-! ## Runs -/

/-- The calls, with their arguments. -/
inductive IrqCall where
  | allocVector (outVector : ℕ)
  | freeVector (vector : ℕ)
  | register (vector handler ctx : ℕ)
  | unregister (vector : ℕ)
  | routeGsi (gsi : BitVec 32) (vector : ℕ) (flags : BitVec 32)
  | routeIsa (isaIrq vector outGsi : ℕ)
  | maskGsi (gsi : BitVec 32)
  | unmaskGsi (gsi : BitVec 32)
  | unrouteGsi (gsi : BitVec 32)

/-- A call, with the answers of the hardware. -/
def Irq.call : IrqCall → IrqReply × Irq
  | .allocVector outVector => irqAllocVector s outVector
  | .freeVector vector => irqFreeVector s vector
  | .register vector handler ctx => irqRegister s vector handler ctx
  | .unregister vector => irqUnregister s vector
  | .routeGsi gsi vector flags => irqRouteGsi s io gsi vector flags
  | .routeIsa isaIrq vector outGsi => irqRouteIsa s io isaIrq vector outGsi
  | .maskGsi gsi => irqMaskGsi s io gsi
  | .unmaskGsi gsi => irqUnmaskGsi s io gsi
  | .unrouteGsi gsi => irqUnrouteGsi s io gsi

/-- One step: the initialisation, a call, or `irqDispatch` that enters or leaves a handler. A
handler may call, too. -/
inductive IrqStep : Irq → Irq → Prop where
  | init {s s' : Irq} (madt : Option (List AcpiIso)) (h : irqInit s madt = some s') : IrqStep s s'
  | call {s : Irq} (io : Ioapic) (c : IrqCall) : IrqStep s (s.call io c).2
  | enter {s : Irq} (hinit : s.inited = true) (hdepth : s.depth = 0) :
      IrqStep s { s with depth := 1 }
  | leave {s : Irq} (hdepth : s.depth = 1) : IrqStep s { s with depth := 0 }

end Bongos.Arch
