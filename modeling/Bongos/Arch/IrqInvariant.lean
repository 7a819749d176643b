import Bongos.Arch.Irq

/-!
# The routing tables stay consistent

What a step can do to the tables is said once (`IrqEffect`), and the invariant is proved from that:
routes are one to one and belong to allocated vectors, an unmasked line has a route and a handler,
and a vector that is not allocated has neither.
-/

namespace Bongos.Arch

open Function (update update_of_ne update_self)

/-- The line `gsi` is routed to the vector `v`. -/
def Irq.Routed (s : Irq) (gsi : BitVec 32) (v : ℕ) : Prop :=
  v < IRQ_VECTOR_COUNT ∧ gsi ≠ NO_GSI ∧ s.vectorGsi v = gsi

/-- The vector `v` is allocated. -/
def Irq.Allocated (s : Irq) (v : ℕ) : Prop := irqVectorMapIsAllocated s.vectorMap v = true

/-- The invariant of the tables. -/
structure IrqOk (s : Irq) : Prop where
  route_inj : ∀ gsi v w, s.Routed gsi v → s.Routed gsi w → v = w
  routed : ∀ gsi v, s.Routed gsi v → s.Allocated v
  handler : ∀ v, (s.slots v).handler ≠ 0 → s.Allocated v ∨ vectorIsFixed v = true
  unmasked : ∀ v, s.vectorUnmasked v = true →
    (∃ gsi, s.Routed gsi v) ∧ (s.slots v).handler ≠ 0

/-! ## What a call does -/

/-- Everything that a call can do to the tables. -/
inductive IrqEffect (s : Irq) : Irq → Prop where
  | same : IrqEffect s s
  | alloc {v : ℕ} (hv : DynamicVector v) (hfree : ¬ s.Allocated v) :
    IrqEffect s { s with vectorMap := s.vectorMap.setUsed v }
  | free {v : ℕ} {m : IrqVectorMap} (hv : v < IRQ_VECTOR_COUNT) (hhandler : (s.slots v).handler = 0)
    (hgsi : s.vectorGsi v = NO_GSI)
    (hm : ∀ w, irqVectorMapIsAllocated m w = true ↔ w ≠ v ∧ s.Allocated w) :
    IrqEffect s { s with vectorMap := m }
  | register {v h ctx : ℕ} (howned : s.Allocated v ∨ vectorIsFixed v = true) (hh : h ≠ 0) :
    IrqEffect s { s with slots := update s.slots v ⟨h, ctx⟩ }
  | unregister {v : ℕ} (hmasked : ¬ (s.vectorGsi v ≠ NO_GSI ∧ s.vectorUnmasked v = true)) :
    IrqEffect s { s with slots := update s.slots v ⟨0, 0⟩ }
  | route {v : ℕ} {gsi : BitVec 32} (hv : s.Allocated v) (hnew : ∀ w < IRQ_VECTOR_COUNT,
      s.vectorGsi w ≠ gsi) :
    IrqEffect s
      { s with
        vectorGsi := update s.vectorGsi v gsi
        vectorUnmasked := update s.vectorUnmasked v false }
  | mask {v : ℕ} {gsi : BitVec 32} {unmasked : Bool} (hv : v < IRQ_VECTOR_COUNT)
    (hgsi : s.vectorGsi v = gsi) (hfirst : ∀ w < v, s.vectorGsi w ≠ gsi)
    (hhandler : unmasked = true → (s.slots v).handler ≠ 0) :
    IrqEffect s { s with vectorUnmasked := update s.vectorUnmasked v unmasked }
  | unroute {v : ℕ} :
    IrqEffect s
      { s with
        vectorGsi := update s.vectorGsi v NO_GSI
        vectorUnmasked := update s.vectorUnmasked v false }

variable {s : Irq} {v : ℕ} {gsi : BitVec 32}

/-- `vectorOfGsi` finds the first vector with the entry. -/
theorem vectorOfGsi_eq_some (h : vectorOfGsi s gsi = some v) :
    v < IRQ_VECTOR_COUNT ∧ s.vectorGsi v = gsi ∧ ∀ w < v, s.vectorGsi w ≠ gsi := by
  rw [vectorOfGsi, List.find?_range_eq_some] at h
  obtain ⟨hgsi, hmem, hfirst⟩ := h
  exact ⟨List.mem_range.1 hmem, by simpa using hgsi, fun w hw => by simpa using hfirst w hw⟩

theorem vectorOfGsi_eq_none (h : ¬ (vectorOfGsi s gsi).isSome) :
    ∀ w < IRQ_VECTOR_COUNT, s.vectorGsi w ≠ gsi := by
  intro w hw
  rw [Option.not_isSome_iff_eq_none, vectorOfGsi, List.find?_eq_none] at h
  simpa using h w (List.mem_range.2 hw)

variable (s) (io : Ioapic)

theorem irqAllocVector_effect (outVector : ℕ) : IrqEffect s (irqAllocVector s outVector).2 := by
  unfold irqAllocVector
  split_ifs with hbad
  · exact .same
  · rcases irqVectorMapAlloc_cases s.vectorMap with halloc | ⟨v, hv, hfree, halloc⟩
    · rw [halloc]
      exact .same
    · rw [halloc]
      exact .alloc hv (by rw [Irq.Allocated, hfree]; exact Bool.false_ne_true)

theorem irqFreeVector_effect (vector : ℕ) : IrqEffect s (irqFreeVector s vector).2 := by
  unfold irqFreeVector
  split_ifs with hcall hclean
  · obtain ⟨hv, hhandler, hgsi⟩ := hclean
    rcases irqVectorMapFree_cases s.vectorMap vector with hfree | ⟨-, m, hfree, hm⟩
    · rw [hfree]
      exact .same
    · rw [hfree]
      exact .free hv hhandler hgsi hm
  · exact .same
  · exact .same

theorem irqRegister_effect (vector handler ctx : ℕ) :
    IrqEffect s (irqRegister s vector handler ctx).2 := by
  unfold irqRegister
  split_ifs with hbad howned
  · exact .same
  · rw [not_or, not_or] at hbad
    exact .register (Bool.or_eq_true_iff.1 howned.1) hbad.2.1
  · exact .same

theorem irqUnregister_effect (vector : ℕ) : IrqEffect s (irqUnregister s vector).2 := by
  unfold irqUnregister
  split_ifs with hbad hmasked
  · exact .same
  · exact .unregister hmasked.2
  · exact .same

theorem irqRouteGsi_effect (gsi : BitVec 32) (vector : ℕ)
    (flags : BitVec 32) : IrqEffect s (irqRouteGsi s io gsi vector flags).2 := by
  unfold irqRouteGsi
  split_ifs with hbad husable howned hid
  · exact .same
  · exact .same
  · exact .same
  · rw [not_or, not_or, not_not] at howned
    dsimp only
    split
    · exact .route howned.1 (vectorOfGsi_eq_none howned.2.2)
    · exact .same
  · exact .same

theorem irqRouteIsa_effect (isaIrq vector outGsi : ℕ) :
    IrqEffect s (irqRouteIsa s io isaIrq vector outGsi).2 := by
  unfold irqRouteIsa
  split
  · exact .same
  · split
    · exact .same
    · split
      · exact .same
      · split
        · exact .same
        · split
          · rw [apply_ite Prod.snd, ite_self]
            exact irqRouteGsi_effect s io _ vector _
          · exact .same

theorem setGsiMask_effect (gsi : BitVec 32) (masked : Bool) :
    IrqEffect s (setGsiMask s io gsi masked).2 := by
  unfold setGsiMask
  split_ifs with hcall
  · split
    · exact .same
    · next v hv =>
      obtain ⟨hlt, hgsi, hfirst⟩ := vectorOfGsi_eq_some hv
      split_ifs with hhandler
      · exact .same
      · split
        · refine .mask hlt hgsi hfirst fun hunmasked h0 => hhandler ⟨?_, h0⟩
          simpa using hunmasked
        · exact .same
  · exact .same

theorem irqUnrouteGsi_effect (gsi : BitVec 32) : IrqEffect s (irqUnrouteGsi s io gsi).2 := by
  unfold irqUnrouteGsi
  split_ifs with hcall
  · split
    · exact .same
    · split
      · exact .unroute
      · exact .same
  · exact .same

/-- The effect of a call. -/
theorem Irq.call_effect (c : IrqCall) : IrqEffect s (s.call io c).2 := by
  cases c with
  | allocVector outVector => exact irqAllocVector_effect s outVector
  | freeVector vector => exact irqFreeVector_effect s vector
  | register vector handler ctx => exact irqRegister_effect s vector handler ctx
  | unregister vector => exact irqUnregister_effect s vector
  | routeGsi gsi vector flags => exact irqRouteGsi_effect s io gsi vector flags
  | routeIsa isaIrq vector outGsi => exact irqRouteIsa_effect s io isaIrq vector outGsi
  | maskGsi gsi => exact setGsiMask_effect s io gsi true
  | unmaskGsi gsi => exact setGsiMask_effect s io gsi false
  | unrouteGsi gsi => exact irqUnrouteGsi_effect s io gsi

variable {s}

/-! ## The invariant -/

section Effects

variable {s : Irq} (hok : IrqOk s)
include hok

/-- A vector that is not allocated has no route. -/
theorem IrqOk.vectorGsi_eq (hv : v < IRQ_VECTOR_COUNT) (hfree : ¬ s.Allocated v) :
    s.vectorGsi v = NO_GSI := by
  by_contra hgsi
  exact hfree (hok.routed _ v ⟨hv, hgsi, rfl⟩)

/-- The vector 0, an exception, has neither a route nor a handler. So it is what `vectorOfGsi` finds
for `NO_GSI`, and nothing can be unmasked there. -/
theorem IrqOk.vector_zero : s.vectorGsi 0 = NO_GSI ∧ (s.slots 0).handler = 0 := by
  have hzero : ¬ s.Allocated 0 := by
    rw [Irq.Allocated, irqVectorMapIsAllocated_iff, DynamicVector, IRQ_VECTOR_FIRST_DYNAMIC]
    omega
  refine ⟨hok.vectorGsi_eq (by decide) hzero, ?_⟩
  by_contra hne
  rcases hok.handler 0 hne with halloc | hfixed
  · exact hzero halloc
  · exact absurd hfixed (by decide)

/-- A change of the map that frees no vector with a handler or a route. -/
theorem IrqOk.vectorMap {m : IrqVectorMap}
    (hm : ∀ v, s.Allocated v → irqVectorMapIsAllocated m v = true ∨
      (s.slots v).handler = 0 ∧ s.vectorGsi v = NO_GSI) : IrqOk { s with vectorMap := m } := by
  refine ⟨hok.route_inj, fun gsi v hr => ?_, fun v hv => ?_, hok.unmasked⟩
  · rcases hm v (hok.routed gsi v hr) with hkeep | ⟨-, hnone⟩
    · exact hkeep
    · exact absurd (hr.2.2.symm.trans hnone) hr.2.1
  · rcases hok.handler v hv with halloc | hfixed
    · exact .inl ((hm v halloc).resolve_right fun hnone => hv hnone.1)
    · exact .inr hfixed

/-- A new entry for a vector, masked, which no other vector has. -/
theorem IrqOk.vectorGsi (v : ℕ) (gsi : BitVec 32) (hnew : ∀ g w, s.Routed g w → g ≠ gsi)
    (halloc : gsi ≠ NO_GSI → s.Allocated v) :
    IrqOk
      { s with
        vectorGsi := update s.vectorGsi v gsi
        vectorUnmasked := update s.vectorUnmasked v false } := by
  -- A route of the new table is the new one, or an old one of another vector.
  have hrouted : ∀ {g w}, Irq.Routed { s with
      vectorGsi := update s.vectorGsi v gsi
      vectorUnmasked := update s.vectorUnmasked v false } g w →
      w = v ∧ g = gsi ∧ gsi ≠ NO_GSI ∨ w ≠ v ∧ s.Routed g w := by
    rintro g w ⟨hlt, hne, hg⟩
    dsimp only at hg
    by_cases hwv : w = v
    · rw [hwv, update_self] at hg
      exact .inl ⟨hwv, hg.symm, hg ▸ hne⟩
    · rw [update_of_ne hwv] at hg
      exact .inr ⟨hwv, hlt, hne, hg⟩
  refine ⟨fun g a b ha hb => ?_, fun g w hw => ?_, hok.handler, fun w hw => ?_⟩
  · rcases hrouted ha with ⟨hav, hga, -⟩ | ⟨-, ha'⟩ <;>
      rcases hrouted hb with ⟨hbv, hgb, -⟩ | ⟨-, hb'⟩
    · exact hav.trans hbv.symm
    · exact absurd hga (hnew g b hb')
    · exact absurd hgb (hnew g a ha')
    · exact hok.route_inj g a b ha' hb'
  · rcases hrouted hw with ⟨rfl, -, hne⟩ | ⟨-, hw⟩
    · exact halloc hne
    · exact hok.routed g w hw
  · dsimp only at hw
    by_cases hwv : w = v
    · rw [hwv, update_self] at hw
      exact absurd hw Bool.false_ne_true
    · rw [update_of_ne hwv] at hw
      obtain ⟨⟨g, hlt, hne, hg⟩, hhandler⟩ := hok.unmasked w hw
      exact ⟨⟨g, hlt, hne, (update_of_ne hwv _ _).trans hg⟩, hhandler⟩

theorem IrqOk.effect {s' : Irq} (h : IrqEffect s s') : IrqOk s' := by
  cases h with
  | same => exact hok
  | alloc hv hfree =>
    exact hok.vectorMap fun w hw => .inl ((irqVectorMapIsAllocated_setUsed _ hv w).2 (.inr hw))
  | @free v m hv hhandler hgsi hm =>
    refine hok.vectorMap fun w hw => ?_
    by_cases hwv : w = v
    · exact .inr (hwv ▸ ⟨hhandler, hgsi⟩)
    · exact .inl ((hm w).2 ⟨hwv, hw⟩)
  | @register v h ctx howned hh =>
    refine ⟨hok.route_inj, hok.routed, fun w hw => ?_, fun w hw => ⟨(hok.unmasked w hw).1, ?_⟩⟩
    · by_cases hwv : w = v
      · exact hwv ▸ howned
      · dsimp only at hw
        rw [update_of_ne hwv] at hw
        exact hok.handler w hw
    · dsimp only
      by_cases hwv : w = v
      · rw [hwv, update_self]
        exact hh
      · rw [update_of_ne hwv]
        exact (hok.unmasked w hw).2
  | @unregister v hmasked =>
    refine ⟨hok.route_inj, hok.routed, fun w hw => ?_, fun w hw => ⟨(hok.unmasked w hw).1, ?_⟩⟩
    · dsimp only at hw
      by_cases hwv : w = v
      · rw [hwv, update_self] at hw
        exact absurd rfl hw
      · rw [update_of_ne hwv] at hw
        exact hok.handler w hw
    · obtain ⟨⟨gsi, hlt, hne, hgsi⟩, hhandler⟩ := hok.unmasked w hw
      by_cases hwv : w = v
      · subst hwv
        exact absurd ⟨hgsi ▸ hne, hw⟩ hmasked
      · dsimp only
        rw [update_of_ne hwv]
        exact hhandler
  | @route v gsi hv hnew =>
    refine hok.vectorGsi v gsi (fun g w hw hg => ?_) fun _ => hv
    exact hnew w hw.1 (hw.2.2.trans hg)
  | @mask v gsi unmasked hv hgsi hfirst hhandler =>
    refine ⟨hok.route_inj, hok.routed, hok.handler, fun w hw => ?_⟩
    dsimp only at hw
    by_cases hwv : w = v
    · subst hwv
      rw [update_self] at hw
      refine ⟨⟨gsi, hv, fun hno => ?_, hgsi⟩, hhandler hw⟩
      -- The first entry with `NO_GSI` is that of vector 0, which has no handler.
      rcases Nat.eq_zero_or_pos w with rfl | hpos
      · exact hhandler hw hok.vector_zero.2
      · exact hfirst 0 hpos (hok.vector_zero.1.trans hno.symm)
    · rw [update_of_ne hwv] at hw
      exact hok.unmasked w hw
  | @unroute v =>
    exact hok.vectorGsi v NO_GSI (fun g w hw hg => hw.2.1 hg) fun hne => absurd rfl hne

end Effects

/-- The tables after `irqInit` are empty. -/
theorem IrqOk.init {s' : Irq} {madt : Option (List AcpiIso)} (h : irqInit s madt = some s')
    (hhandler : ∀ v, (s.slots v).handler = 0) (hmasked : ∀ v, s.vectorUnmasked v = false) :
    IrqOk s' := by
  unfold irqInit at h
  split_ifs at h
  obtain rfl := Option.some.inj h
  have hnone : ∀ gsi v, ¬ Irq.Routed
      { s with vectorMap := irqVectorMapInit, vectorGsi := fun _ => NO_GSI, madtInfo := madt,
               inited := true } gsi v :=
    fun gsi v hr => hr.2.1 hr.2.2.symm
  exact ⟨fun gsi v w hv => absurd hv (hnone gsi v), fun gsi v hv => absurd hv (hnone gsi v),
    fun v hv => absurd (hhandler v) hv,
    fun v hv => absurd hv (by dsimp only; rw [hmasked v]; exact Bool.false_ne_true)⟩

/-! ## Runs -/

/-- What holds from boot on: nothing is in the tables before `irqInit`, and the invariant holds
after it. -/
def IrqReachable (s : Irq) : Prop :=
  if s.inited then IrqOk s
  else (∀ v, (s.slots v).handler = 0) ∧ ∀ v, s.vectorUnmasked v = false

/-- Before `irqInit` every call is refused. -/
theorem Irq.call_of_not_inited (hinit : s.inited = false) (io : Ioapic) (c : IrqCall) :
    (s.call io c).2 = s := by
  have hcall : ¬ s.callable = true := by simp [Irq.callable, hinit]
  cases c <;>
    simp [Irq.call, irqAllocVector, irqFreeVector, irqRegister, irqUnregister, irqRouteGsi,
      irqRouteIsa, irqMaskGsi, irqUnmaskGsi, setGsiMask, irqUnrouteGsi, hcall]

/-- A call does not change whether `irqInit` has run. -/
theorem IrqEffect.inited {s' : Irq} (h : IrqEffect s s') : s'.inited = s.inited := by
  cases h <;> rfl

theorem IrqReachable.step {s' : Irq} (h : IrqReachable s) (hstep : IrqStep s s') :
    IrqReachable s' := by
  unfold IrqReachable at h ⊢
  cases hstep with
  | init madt hinit =>
    have hfirst : ¬ s.inited = true := fun hi => by simp [irqInit, hi] at hinit
    have hdone : s'.inited = true := by
      rw [irqInit, if_neg hfirst] at hinit
      rw [← Option.some.inj hinit]
    rw [if_neg hfirst] at h
    rw [if_pos hdone]
    exact .init hinit h.1 h.2
  | call io c =>
    cases hi : s.inited with
    | false =>
      rw [Irq.call_of_not_inited hi, hi]
      rwa [hi] at h
    | true =>
      have heffect := s.call_effect io c
      rw [heffect.inited, if_pos hi]
      rw [if_pos hi] at h
      exact h.effect heffect
  | enter hinit hdepth =>
    rw [if_pos hinit] at h
    rw [if_pos hinit]
    exact ⟨h.route_inj, h.routed, h.handler, h.unmasked⟩
  | leave hdepth =>
    split_ifs at h ⊢ with hi
    · exact ⟨h.route_inj, h.routed, h.handler, h.unmasked⟩
    · exact h

/-- Only `irqFreeVector` takes an allocation away, and only from a vector without handler and
route. -/
theorem IrqEffect.frees {s' : Irq} (h : IrqEffect s s') (halloc : s.Allocated v)
    (hfree : ¬ s'.Allocated v) :
    (s.slots v).handler = 0 ∧ s.vectorGsi v = NO_GSI ∧ s'.slots = s.slots ∧
      s'.vectorGsi = s.vectorGsi := by
  cases h with
  | alloc hw _ => exact absurd ((irqVectorMapIsAllocated_setUsed _ hw v).2 (.inr halloc)) hfree
  | @free w m hw hhandler hgsi hm =>
    obtain rfl : v = w := by
      by_contra hne
      exact hfree ((hm v).2 ⟨hne, halloc⟩)
    exact ⟨hhandler, hgsi, rfl, rfl⟩
  | _ => exact absurd halloc hfree

theorem IrqStep.frees {s' : Irq} (h : IrqStep s s') (hinit : s.inited = true)
    (halloc : s.Allocated v) (hfree : ¬ s'.Allocated v) :
    (s.slots v).handler = 0 ∧ s.vectorGsi v = NO_GSI ∧ s'.slots = s.slots ∧
      s'.vectorGsi = s.vectorGsi := by
  cases h with
  | init madt hi => simp [irqInit, hinit] at hi
  | call io c => exact (s.call_effect io c).frees halloc hfree
  | enter _ _ => exact absurd halloc hfree
  | leave _ => exact absurd halloc hfree

/-- An allocation that succeeds takes a free vector and changes nothing else. -/
theorem irqAllocVector_ok {outVector : ℕ} {v : BitVec 32}
    (h : (irqAllocVector s outVector).1 = ⟨.ok, some v, false⟩) :
    DynamicVector v.toNat ∧ ¬ s.Allocated v.toNat ∧
      (irqAllocVector s outVector).2 = { s with vectorMap := s.vectorMap.setUsed v.toNat } := by
  unfold irqAllocVector at h ⊢
  split_ifs at h ⊢ with hbad
  · cases h
  · rcases irqVectorMapAlloc_cases s.vectorMap with halloc | ⟨w, hw, hfree, halloc⟩
    · rw [halloc] at h
      cases h
    · rw [halloc] at h ⊢
      have hwv : BitVec.ofNat 32 w = v := Option.some.inj (congrArg IrqReply.out h)
      have hnat : v.toNat = w := by
        unfold DynamicVector IRQ_VECTOR_LAST_DYNAMIC at hw
        rw [← hwv, BitVec.toNat_ofNat, Nat.mod_eq_of_lt (by omega)]
      rw [hnat]
      refine ⟨hw, ?_, rfl⟩
      rw [Irq.Allocated, hfree]
      exact Bool.false_ne_true

/-- In every state that is reached from boot, whatever is called with whatever arguments and
whatever the hardware answers: no line is routed to two vectors and no vector to two lines, routed
vectors are allocated, and what is unmasked is routed and has a handler. A step frees a vector only
if it has neither a handler nor a route, and a vector that a call allocates has neither. -/
theorem irq_routing {s : Irq} (hrun : Run IrqStep Irq.boot s) (hinit : s.inited = true) :
    (∀ gsi v w, s.Routed gsi v → s.Routed gsi w → v = w) ∧
    (∀ gsi gsi' v, s.Routed gsi v → s.Routed gsi' v → gsi = gsi') ∧
    (∀ gsi v, s.Routed gsi v → DynamicVector v ∧ s.Allocated v) ∧
    (∀ v, s.vectorUnmasked v = true → (∃ gsi, s.Routed gsi v) ∧ (s.slots v).handler ≠ 0) ∧
    (∀ s', IrqStep s s' → ∀ v, s.Allocated v → ¬ s'.Allocated v →
      (s.slots v).handler = 0 ∧ (s'.slots v).handler = 0 ∧
        ∀ gsi, ¬ s.Routed gsi v ∧ ¬ s'.Routed gsi v) ∧
    ∀ io outVector v, (s.call io (.allocVector outVector)).1 = ⟨.ok, some v, false⟩ →
      ¬ s.Allocated v.toNat ∧ (s.call io (.allocVector outVector)).2.Allocated v.toNat ∧
        ((s.call io (.allocVector outVector)).2.slots v.toNat).handler = 0 ∧
        ∀ gsi, ¬ (s.call io (.allocVector outVector)).2.Routed gsi v.toNat := by
  have hok : IrqOk s := by
    have hreach : IrqReachable s :=
      hrun.invariant (show IrqReachable Irq.boot from ⟨fun _ => rfl, fun _ => rfl⟩)
        IrqReachable.step
    rwa [IrqReachable, if_pos hinit] at hreach
  refine ⟨hok.route_inj, fun gsi gsi' v h h' => h.2.2.symm.trans h'.2.2, fun gsi v h => ?_,
    hok.unmasked, fun s' hstep v halloc hfree => ?_, fun io outVector v halloc => ?_⟩
  · have halloc := hok.routed gsi v h
    exact ⟨((irqVectorMapIsAllocated_iff _ _).1 halloc).1, halloc⟩
  · obtain ⟨hhandler, hgsi, hslots, hroutes⟩ := hstep.frees hinit halloc hfree
    refine ⟨hhandler, by rw [hslots, hhandler], fun gsi => ⟨?_, ?_⟩⟩
    · exact fun hr => hr.2.1 (hr.2.2.symm.trans hgsi)
    · exact fun hr => hr.2.1 (hr.2.2.symm.trans (hroutes ▸ hgsi))
  · obtain ⟨hdyn, hfree, hs'⟩ := irqAllocVector_ok halloc
    have hcount : v.toNat < IRQ_VECTOR_COUNT := Nat.lt_of_le_of_lt hdyn.2 (by decide)
    have hgsi := hok.vectorGsi_eq hcount hfree
    rw [Irq.call, hs']
    refine ⟨hfree, (irqVectorMapIsAllocated_setUsed _ hdyn _).2 (.inl rfl), ?_, fun gsi hr =>
      hr.2.1 (hr.2.2.symm.trans hgsi)⟩
    by_contra hne
    rcases hok.handler _ hne with halloc' | hfixed
    · exact hfree halloc'
    · unfold DynamicVector IRQ_VECTOR_LAST_DYNAMIC at hdyn
      simp only [vectorIsFixed, Bool.or_eq_true, Bool.and_eq_true, decide_eq_true_eq] at hfixed
      omega

/-- Controllers that accept everything. -/
def Ioapic.working : Ioapic where
  lapicId := 0
  ioapicCount := 1
  ioapicGsiUsable _ := true
  ioapicWriteRte _ _ := .ok
  ioapicSetMask _ _ := .ok
  ioapicReadRte _ _ := (.ok, 0)

/-- The timer line 2, routed to vector 48 and unmasked. -/
def Irq.timerRouted : Irq :=
  [IrqCall.allocVector 1, .register 48 1 0, .routeGsi 2 48 0, .unmaskGsi 2].foldl
    (fun s c => (s.call Ioapic.working c).2)
    { Irq.boot with
      vectorMap := irqVectorMapInit, vectorGsi := fun _ => NO_GSI, madtInfo := some [],
      inited := true }

theorem irq_routing_timer :
    Irq.timerRouted.vectorUnmasked 48 = true ∧ (Irq.timerRouted.slots 48).handler ≠ 0 ∧
      ∃ gsi, Irq.timerRouted.Routed gsi 48 := by
  have hrun : Run IrqStep Irq.boot Irq.timerRouted :=
    ((((Relation.ReflTransGen.single (.init (some []) rfl)).tail (.call .working _)).tail
      (.call .working _)).tail (.call .working _)).tail (.call .working _)
  have hunmasked : Irq.timerRouted.vectorUnmasked 48 = true := by decide +kernel
  obtain ⟨-, -, -, hroute, -⟩ := irq_routing hrun (by decide +kernel)
  exact ⟨hunmasked, (hroute 48 hunmasked).2, (hroute 48 hunmasked).1⟩

end Bongos.Arch
