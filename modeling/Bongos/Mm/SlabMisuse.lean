import Bongos.Mm.SlabMarks

/-!
# Wrong frees to the slab allocator

What `slabFree` and `kfree` do with every pointer. A pointer is nothing, an address in no slab, an
address in a slab that starts no object, or an object; and an object is free, cached, or with a
caller. `FreeExact` gives the answer in each case.

The calls are stated on the state, `SlabM`, so that a bug that is reported halfway would show what
had been written before it.
-/

namespace Bongos.Mm

open FallibleState List

open DyadicBlocks (InBlock)

variable {s : SlabState} {c a i p : ℕ} {out : List ℕ}

/-! ## Where a pointer points -/

/-- The address `p` lies in a slab. -/
def InSlab (s : SlabState) (p : ℕ) : Prop :=
  ∃ c a, s.Listed c a ∧ a ≤ p ∧ p < a + 4096 * 2^(s.slabs a).order

/-- The address `p` is that of an object of the cache `c`. -/
def IsObject (s : SlabState) (c p : ℕ) : Prop :=
  ∃ a, s.Listed c a ∧ ∃ i < (s.slabs a).objCount, p = slabSlot s a i

/-- The object `p` of the cache `c` is in the magazine, or on the free list of its slab. -/
def FreeObject (s : SlabState) (c p : ℕ) : Prop :=
  (s.inUse c = true ∧ p ∈ (s.caches c).bspMag.rounds) ∨
    ∃ a, s.Listed c a ∧ ∃ l, Chain (s.slabs a).bufctl SLAB_BUFCTL_END (s.slabs a).freeHead l ∧
      ∃ i ∈ l, p = slabSlot s a i

/-- A pointer into a slab is the address of a slot, or it is misaligned. -/
theorem SlabOk.resolve_cases (o : SlabOk s c out a) (hlay : LayoutOk (s.caches c).layout)
    (hle : a ≤ p) (hlt : p < a + 4096 * 2^(s.caches c).layout.order) :
    (∃ i < (s.caches c).layout.objsPerSlab, p = slotAddr (s.caches c).layout a i ∧
        slabResolvePointer s p = .ok (a, i)) ∨ slabResolvePointer s p = .error .misaligned := by
  rw [o.resolve_inside hle hlt]
  split_ifs with hlow
  · exact .inr rfl
  cases hidx : slabIndexForOffset (s.caches c).layout (p - (a + (s.caches c).layout.objOffset)) with
  | none => exact .inr rfl
  | some i =>
    obtain ⟨hi, hoff⟩ := (slabIndexForOffset_eq_some hlay).1 hidx
    exact .inl ⟨i, hi, by rw [slotAddr]; omega, rfl⟩

/-- An object on the free list of its slab is not marked busy. -/
theorem FreeListOk.not_busy {slab : Slab} {busy : ℕ → Prop} (f : FreeListOk slab busy)
    (hn : slab.objCount ≤ SLAB_MAX_OBJECTS) {l : List ℕ}
    (hl : Chain slab.bufctl SLAB_BUFCTL_END slab.freeHead l) (hi : i ∈ l) :
    slab.bufctl i ≠ SLAB_BUFCTL_BUSY := by
  obtain ⟨l', hl', -, -, hmem⟩ := f.chain
  obtain rfl := hl.unique hl'
  rcases hl.next_mem hi with h | h
  · rw [h]; decide
  · have := ((hmem _).1 h).1
    simp only [SLAB_MAX_OBJECTS, SLAB_BUFCTL_BUSY] at *
    omega

namespace SlabCallInv

variable {w : SlabWorld}

section

variable (v : SlabCallInv w)

include v

/-- The slab of a cache, as the invariant has it. -/
theorem slabOk (hl : w.st.Listed c a) :
    LayoutOk (w.st.caches c).layout ∧ SlabOk w.st c (w.outside c) a := by
  obtain ⟨hc, k, ha⟩ := hl
  exact ⟨(v.world.inv c hc).layout, (v.world.inv c hc).slab ha⟩

/-- An object resolves to its slab and slot. -/
theorem resolve_object (h : IsObject w.st c p) :
    ∃ a, w.st.Listed c a ∧ ∃ i < (w.st.caches c).layout.objsPerSlab,
      p = slotAddr (w.st.caches c).layout a i ∧ slabResolvePointer w.st p = .ok (a, i) ∧
      (w.st.slabs a).cache = c := by
  obtain ⟨a, hl, i, hi, rfl⟩ := h
  obtain ⟨-, o⟩ := v.slabOk hl
  rw [o.objCount_eq] at hi
  rw [o.slabSlot_eq]
  obtain ⟨k, ha⟩ := hl.2
  exact ⟨a, hl, i, hi, rfl, (v.world.inv c hl.1).resolve ha hi, o.cache_eq⟩

/-- A pointer into a marked frame is a pointer into a slab. -/
theorem marked_slab (hp : BOOTINFO_HHDM_BASE ≤ p)
    (h : w.st.Marked ((p - BOOTINFO_HHDM_BASE) >>> 12)) :
    ∃ c a, w.st.Listed c a ∧ a ≤ p ∧ p < a + 4096 * 2^(w.st.slabs a).order := by
  obtain ⟨c, a, hl, hin⟩ := v.marks _ h
  obtain ⟨pfn, ha, -, -⟩ := (v.slabOk hl).2.frames
  obtain ⟨hlo, hhi⟩ := hin
  exact ⟨c, a, hl, by omega, by omega⟩

/-- A pointer that resolves is an object of the cache of its slab. -/
theorem object_of_resolve (h : slabResolvePointer w.st p = .ok (a, i)) :
    IsObject w.st (w.st.slabs a).cache p ∧ w.st.Listed (w.st.slabs a).cache a ∧
      i < (w.st.caches (w.st.slabs a).cache).layout.objsPerSlab ∧
      p = slotAddr (w.st.caches (w.st.slabs a).cache).layout a i := by
  -- The frame is marked, so the record names a slab in use, and the pointer is in that slab.
  have hr := h
  unfold slabResolvePointer at hr
  simp only at hr
  split_ifs at hr with h1 h2 h3 h4 h5
  rw [not_or, Bool.not_eq_true', Bool.not_eq_false] at h3
  obtain ⟨c, b, hl, hle, hlt⟩ := v.marked_slab (by omega) h3.2
  obtain ⟨hlay, o⟩ := v.slabOk hl
  rw [o.order_eq] at hlt
  rcases o.resolve_cases hlay hle hlt with ⟨j, hj, hp, hres⟩ | hres
  · rw [h] at hres
    cases hres
    rw [o.cache_eq]
    exact ⟨⟨a, hl, i, by rwa [o.objCount_eq], by rwa [o.slabSlot_eq]⟩, hl, hj, hp⟩
  · rw [h] at hres; cases hres

/-- A pointer that does not resolve is in no slab, or it is misaligned. -/
theorem resolve_error {bug : SlabBugKind} (h : slabResolvePointer w.st p = .error bug) :
    (InSlab w.st p → bug = .misaligned) ∧ (¬ InSlab w.st p →
      bug = .vmallocPointer ∨ bug = .badPointer ∨ bug = .notSlab) := by
  refine ⟨fun ⟨c, a, hl, hle, hlt⟩ => ?_, fun hnot => ?_⟩
  · obtain ⟨hlay, o⟩ := v.slabOk hl
    rw [o.order_eq] at hlt
    rcases o.resolve_cases hlay hle hlt with ⟨j, -, -, hres⟩ | hres
    · rw [h] at hres; cases hres
    · rw [h] at hres; cases hres; rfl
  · unfold slabResolvePointer at h
    simp only at h
    split_ifs at h with h1 h2 h3
    · cases h; exact .inl rfl
    · cases h; exact .inr (.inl rfl)
    · cases h; exact .inr (.inr rfl)
    all_goals
      exfalso
      rw [not_or, Bool.not_eq_true', Bool.not_eq_false] at h3
      exact hnot (v.marked_slab (by omega) h3.2)

/-- An object is free or with a caller. -/
theorem object_place (h : IsObject w.st c p) : FreeObject w.st c p ∨ p ∈ w.held c := by
  obtain ⟨a, hl, i, hi, rfl⟩ := h
  obtain ⟨hc, k, ha⟩ := id hl
  obtain ⟨-, o⟩ := v.slabOk hl
  obtain ⟨l, hch, -, -, -, hplace⟩ := (v.world.partition hc).slot k a ha
  cases hplace i (o.objCount_eq ▸ hi) with
  | free hfree => exact .inl (.inr ⟨a, hl, l, hch, i, hfree, rfl⟩)
  | cached _ _ hmag =>
    exact .inl (.inl ⟨hc, count_pos_iff.1 (by omega)⟩)
  | held _ _ _ hheld => exact .inr (count_pos_iff.1 (by omega))

/-- Objects that are cached or with a caller are objects. -/
theorem isObject_of_outside (hc : w.st.inUse c = true) (hp : p ∈ w.outside c) :
    IsObject w.st c p := by
  obtain ⟨k, a, ha, i, hi, hslot⟩ := (v.world.inv c hc).out_slot p hp
  obtain ⟨-, o⟩ := v.slabOk ⟨hc, k, ha⟩
  exact ⟨a, ⟨hc, k, ha⟩, i, by rwa [o.objCount_eq], by rwa [o.slabSlot_eq]⟩

theorem isObject_of_held (hp : p ∈ w.held c) : IsObject w.st c p :=
  v.isObject_of_outside (v.world.held_slot hp).1 (mem_append_right _ hp)

theorem isObject_of_free (h : FreeObject w.st c p) : IsObject w.st c p := by
  rcases h with ⟨hc, hp⟩ | ⟨a, hl, l, hch, i, hi, hp⟩
  · exact v.isObject_of_outside hc (mem_append_left _ hp)
  · obtain ⟨-, o⟩ := v.slabOk hl
    obtain ⟨l', hl', -, -, hmem⟩ := o.free.chain
    obtain rfl := hch.unique hl'
    exact ⟨a, hl, i, ((hmem i).1 hi).1, hp⟩

end

end SlabCallInv

/-! ## What a call does -/

/-- What a free must answer to the pointer `p`, if it accepts objects of the caches that are
`mine`. -/
structure FreeExact (w : SlabWorld) (mine : ℕ → Prop) (p : ℕ)
    (answer : Except (SlabBugKind × ℕ) Unit × SlabState) : Prop where
  /-- It goes through for nothing, and for the objects that callers hold. -/
  accepted : (∃ s', answer = (.ok (), s')) ↔ p = 0 ∨ ∃ c, mine c ∧ p ∈ w.held c
  doubleFree : ∀ c, mine c → FreeObject w.st c p → answer = (.error (.doubleFree, p), w.st)
  wrongCache : ∀ c, ¬ mine c → IsObject w.st c p → answer = (.error (.wrongCache, p), w.st)
  misaligned : InSlab w.st p → (∀ c, ¬ IsObject w.st c p) →
    answer = (.error (.misaligned, p), w.st)
  elsewhere : p ≠ 0 → ¬ InSlab w.st p → ∃ bug, answer = (.error (bug, p), w.st) ∧
    (bug = .vmallocPointer ∨ bug = .badPointer ∨ bug = .notSlab)
  /-- A call that reports a bug has written nothing. -/
  unchanged : ∀ bug s', answer = (.error bug, s') → s' = w.st

variable {w : SlabWorld}

/-- An address in a slab is not nothing. -/
theorem SlabCallInv.inSlab_ne_zero (v : SlabCallInv w) (h : InSlab w.st p) : p ≠ 0 := by
  obtain ⟨c, a, hl, hle, -⟩ := h
  obtain ⟨pfn, ha, -⟩ := (v.slabOk hl).2.frames
  rw [ha, BOOTINFO_HHDM_BASE] at hle
  omega

theorem SlabCallInv.inSlab_of_isObject (v : SlabCallInv w)
    (h : IsObject w.st c p) : InSlab w.st p := by
  obtain ⟨a, hl, i, hi, rfl, -⟩ := v.resolve_object h
  obtain ⟨hlay, o⟩ := v.slabOk hl
  obtain ⟨hlow, hhigh⟩ := hlay.slotAddr_inside (a := a) hi
  exact ⟨c, a, hl, by omega, by rwa [o.order_eq]⟩

/-- A call that resolves its pointer, checks the cache, and frees. -/
theorem SlabCallInv.freeExact (v : SlabCallInv w) {mine : ℕ → Prop}
    {answer : Except (SlabBugKind × ℕ) Unit × SlabState} (hnull : p = 0 → answer = (.ok (), w.st))
    (herr : ∀ bug, p ≠ 0 → slabResolvePointer w.st p = .error bug →
      answer = (.error (bug, p), w.st))
    (hwrong : ∀ a i, p ≠ 0 → slabResolvePointer w.st p = .ok (a, i) →
      ¬ mine (w.st.slabs a).cache → answer = (.error (.wrongCache, p), w.st))
    (hmine : ∀ a i, p ≠ 0 → slabResolvePointer w.st p = .ok (a, i) → mine (w.st.slabs a).cache →
      answer = exec (slabFreeCommon (w.st.slabs a).cache a i p) w.st) :
    FreeExact w mine p answer := by
  have hne : ∀ {c}, IsObject w.st c p → p ≠ 0 := fun h => v.inSlab_ne_zero (v.inSlab_of_isObject h)
  have hfree : ∀ c, mine c → FreeObject w.st c p → answer = (.error (.doubleFree, p), w.st) := by
    intro c hc hf
    have hobj := v.isObject_of_free hf
    obtain ⟨a, hl, i, hi, hslot, hres, hcache⟩ := v.resolve_object hobj
    obtain ⟨hlay, o⟩ := v.slabOk hl
    rw [hmine a i (hne hobj) hres (hcache ▸ hc), hcache, slabFreeCommon, exec_get_bind, if_pos]
    · rfl
    rcases hf with ⟨-, hmag⟩ | ⟨b, hb, l, hch, j, hj, hp⟩
    · exact .inr hmag
    · -- The slot that the pointer resolves to is the one on the free list.
      obtain ⟨-, ob⟩ := v.slabOk hb
      obtain ⟨l', hl', -, -, hmem⟩ := ob.free.chain
      obtain rfl := hch.unique hl'
      have hjlt : j < (w.st.caches c).layout.objsPerSlab := ob.objCount_eq ▸ ((hmem j).1 hj).1
      obtain ⟨ka, ha⟩ := hl.2
      obtain ⟨kb, hbk⟩ := hb.2
      rw [ob.slabSlot_eq, hslot] at hp
      obtain ⟨rfl, rfl⟩ := (v.world.inv c hl.1).slot_inj ha hbk hi hjlt hp
      exact .inl (ob.free.not_busy (ob.objCount_eq ▸ hlay.objs_le) hch hj)
  have hwrong' : ∀ c, ¬ mine c → IsObject w.st c p → answer = (.error (.wrongCache, p), w.st) := by
    intro c hc hobj
    obtain ⟨a, -, i, -, -, hres, hcache⟩ := v.resolve_object hobj
    exact hwrong a i (hne hobj) hres (hcache ▸ hc)
  have hheld : ∀ c, mine c → p ∈ w.held c → ∃ s', answer = (.ok (), s') := by
    intro c hc hp
    have hobj := v.isObject_of_held hp
    obtain ⟨a, ⟨hin, k, ha⟩, i, hi, hslot, hres, hcache⟩ := v.resolve_object hobj
    obtain ⟨s', hs', -⟩ := slabFreeCommon_spec v.world hin hp ha hi hslot
    refine ⟨s', ?_⟩
    rw [hmine a i (hne hobj) hres (hcache ▸ hc), hcache, hs']
  -- The call goes through for nothing and for a held object, and reports a bug otherwise.
  have hcases : (p = 0 ∨ ∃ c, mine c ∧ p ∈ w.held c) ∨ ∃ bug, answer = (.error bug, w.st) := by
    by_cases h0 : p = 0
    · exact .inl (.inl h0)
    cases hres : slabResolvePointer w.st p with
    | error bug => exact .inr ⟨_, herr bug h0 hres⟩
    | ok ai =>
      obtain ⟨a, i⟩ := ai
      obtain ⟨hobj, -⟩ := v.object_of_resolve hres
      by_cases hm : mine (w.st.slabs a).cache
      · rcases v.object_place hobj with hf | hp
        · exact .inr ⟨_, hfree _ hm hf⟩
        · exact .inl (.inr ⟨_, hm, hp⟩)
      · exact .inr ⟨_, hwrong a i h0 hres hm⟩
  have hok : (p = 0 ∨ ∃ c, mine c ∧ p ∈ w.held c) → ∃ s', answer = (.ok (), s') := by
    rintro (h0 | ⟨c, hm, hp⟩)
    · exact ⟨w.st, hnull h0⟩
    · exact hheld c hm hp
  refine ⟨⟨?_, hok⟩, hfree, hwrong', fun hin hnone => ?_, fun h0 hout => ?_, fun bug s' hbug => ?_⟩
  · rintro ⟨s', h⟩
    refine hcases.resolve_right ?_
    rintro ⟨bug, h'⟩
    cases h.symm.trans h'
  · have h0 := v.inSlab_ne_zero hin
    cases hres : slabResolvePointer w.st p with
    | error bug =>
      obtain rfl := (v.resolve_error hres).1 hin
      exact herr _ h0 hres
    | ok ai => exact absurd (v.object_of_resolve hres).1 (hnone _)
  · cases hres : slabResolvePointer w.st p with
    | error bug => exact ⟨bug, herr bug h0 hres, (v.resolve_error hres).2 hout⟩
    | ok ai => exact absurd (v.inSlab_of_isObject (v.object_of_resolve hres).1) hout
  · rcases hcases with h | ⟨bug', h⟩
    · obtain ⟨t, h⟩ := hok h
      cases h.symm.trans hbug
    · cases h.symm.trans hbug
      rfl

/-- **Frees are accepted exactly.** In every state that calls reach, and for every pointer:
`slabFree` and `kfree` go through for nothing at all and for an object that a caller holds, of the
cache that is named or of a `kmalloc` cache; any other pointer is reported for what it is, and a
report leaves the allocator as it was. -/
theorem slabFree_exact (slabs : ℕ → Slab) (pages : PageArray) (spans : List PmmSpan)
    (caches : ℕ → SlabCache) (hpages : ∀ f, (pages f).flags &&& PAGE_F_SLAB = 0) (w : SlabWorld)
    (hrun : Run SlabCall (.init slabs pages spans caches) w) (p : ℕ) :
    (∀ c, FreeExact w (fun c' => c' = c) p (exec (slabFree c p) w.st)) ∧
      FreeExact w (fun c => (w.st.caches c).flags &&& SLAB_CACHE_KMALLOC ≠ 0) p
        (exec (kfree p) w.st) := by
  have v : SlabCallInv w :=
    hrun.invariant (.init slabs spans caches hpages) SlabCallInv.call
  refine ⟨fun c => ?_, ?_⟩
  · unfold slabFree
    rw [exec_get_bind]
    refine v.freeExact (fun h0 => ?_) (fun bug h0 hres => ?_) (fun a i h0 hres hne => ?_)
      fun a i h0 hres hc => ?_
    · rw [if_pos h0]; rfl
    · rw [if_neg h0, hres]; rfl
    · rw [if_neg h0, hres]; dsimp only; rw [if_pos hne]; rfl
    · rw [if_neg h0, hres]; dsimp only; rw [if_neg (not_not.2 hc), hc]
  · unfold kfree
    rw [exec_get_bind]
    refine v.freeExact (fun h0 => ?_) (fun bug h0 hres => ?_) (fun a i h0 hres hne => ?_)
      fun a i h0 hres hk => ?_
    · rw [if_pos h0]; rfl
    · rw [if_neg h0, hres]; rfl
    · rw [if_neg h0, hres]; dsimp only; rw [if_pos (not_not.1 hne)]; rfl
    · rw [if_neg h0, hres]; dsimp only; rw [if_neg hk]

/-- The only object that a caller holds is accepted back for its cache, and for no other. -/
theorem slabFree_exact_oneObject : ∃ w p, Run SlabCall noCaches w ∧ w.held 0 = [p] ∧
    (∃ s', exec (slabFree 0 p) w.st = (.ok (), s')) ∧
    exec (slabFree 1 p) w.st = (.error (.wrongCache, p), w.st) := by
  obtain ⟨w, p, hrun, hheld, -⟩ := run_oneObject
  have hcalls : Run SlabCall noCaches w :=
    hrun.invariant .refl fun h hs => h.tail (.step hs)
  have hmem : p ∈ w.held 0 := by rw [hheld]; exact mem_singleton_self p
  obtain ⟨hexact, -⟩ := slabFree_exact _ (fun _ => {}) _ _ (fun _ => rfl) w hcalls p
  have v : SlabCallInv w :=
    hcalls.invariant (.init _ _ _ fun _ => rfl) SlabCallInv.call
  exact ⟨w, p, hcalls, hheld, (hexact 0).accepted.2 (.inr ⟨0, rfl, hmem⟩),
    (hexact 1).wrongCache 0 (by decide) (v.isObject_of_held hmem)⟩

/-- Freeing nothing goes through, although no caller holds it: after a cache is created, `slabFree`
on it with a null pointer returns. -/
theorem slabFree_null : ∃ w, Run SlabCall noCaches w ∧ w.st.inUse 0 = true ∧
    exec (slabFree 0 0) w.st = (.ok (), w.st) ∧ 0 ∉ w.held 0 := by
  have hcreate : slabCacheCreateInternal noCaches.st 64 16 false 0 false =
      .ok (0, { noCaches.st.setCache 0 (newCache 64 16 false 0 false) with
        inUse := Function.update noCaches.st.inUse 0 true }) := by rfl
  exact ⟨⟨_, noCaches.held⟩, .single (.step (.create hcreate)), rfl, rfl, not_mem_nil⟩

end Bongos.Mm
