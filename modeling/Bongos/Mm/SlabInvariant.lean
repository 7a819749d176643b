import Bongos.Mm.SlabLayout

/-!
# The slab invariant

`CacheInv` is the invariant of one cache: its slabs are on the lists that the numbers of their free
objects imply, and the objects that are on no free list are exactly those of `out`, each once. `out`
stands for the magazine and the callers together, so handing an object from one to the other changes
nothing here. While a slab's free list has changed and the slab has not been moved yet, it is the
`moving` slab and exempt from the rule about lists.

`SlabInv` is `CacheInv` for every cache. Two slabs share no frame, because the record of a frame
names one slab, so a write to a slab of one cache leaves the others alone
(`SlabInv.of_self`).
-/

namespace Bongos.Mm

open List

open Function (update update_eq_self update_of_ne update_self)

open DyadicBlocks (InBlock inBlock_self)

/-- The address of slot `i` of the slab at `a`. -/
def slotAddr (layout : SlabLayout) (a i : ℕ) : ℕ := a + layout.objOffset + i * layout.stride

/-- A slab of the cache `c`, with the objects of `out` not on its free list. -/
structure SlabOk (s : SlabState) (c : ℕ) (out : List ℕ) (a : ℕ) : Prop where
  magic_eq : (s.slabs a).magic = SLAB_MAGIC
  cache_eq : (s.slabs a).cache = c
  objBase_eq : (s.slabs a).objBase = a + (s.caches c).layout.objOffset
  objCount_eq : (s.slabs a).objCount = (s.caches c).layout.objsPerSlab
  order_eq : (s.slabs a).order = (s.caches c).layout.order
  /-- The frames of the slab are marked as its own. -/
  frames : ∃ pfn, a = BOOTINFO_HHDM_BASE + pfn * 4096 ∧
    (pfn + 2^(s.caches c).layout.order) * 4096 ≤ BOOTINFO_HHDM_SIZE ∧
    ∀ f, InBlock f pfn (s.caches c).layout.order → pmmPfnValid s.spans f = true ∧
      (s.pages f).flags &&& PAGE_F_SLAB ≠ 0 ∧ (s.pages f).privateWord = a
  free : FreeListOk (s.slabs a) fun i => slotAddr (s.caches c).layout a i ∈ out

/-- The counters of a cache count the slabs on its lists. -/
def CountsOk (cache : SlabCache) : Prop :=
  cache.slabCount = (cache.lists .onPartial).length + (cache.lists .onFull).length +
    (cache.lists .onEmpty).length ∧ cache.emptySlabCount = (cache.lists .onEmpty).length

/-- The invariant of the cache `c`, with the objects `out` not on a free list. -/
structure CacheInv (s : SlabState) (c : ℕ) (out : List ℕ) (moving : Option ℕ) : Prop where
  layout : LayoutOk (s.caches c).layout
  magic_eq : (s.caches c).magic = SLAB_CACHE_MAGIC
  onNone_eq : (s.caches c).lists .onNone = []
  nodup : ∀ k, ((s.caches c).lists k).Nodup
  list_eq : ∀ {k a}, a ∈ (s.caches c).lists k → (s.slabs a).list = k
  slab : ∀ {k a}, a ∈ (s.caches c).lists k → SlabOk s c out a
  homed : ∀ {k a}, a ∈ (s.caches c).lists k → moving ≠ some a → slabWant (s.slabs a) = k
  out_slot : ∀ p ∈ out, ∃ k, ∃ a ∈ (s.caches c).lists k, ∃ i < (s.caches c).layout.objsPerSlab,
    p = slotAddr (s.caches c).layout a i
  out_nodup : out.Nodup
  counts : CountsOk (s.caches c)
  capacity_ge : 4 ≤ (s.caches c).bspMag.capacity
  capacity_le : (s.caches c).bspMag.capacity ≤ SLAB_MAG_MAX_ROUNDS
  batch_eq : (s.caches c).bspMag.batch = (s.caches c).bspMag.capacity / 2

/-- Every cache satisfies its invariant. -/
def SlabInv (s : SlabState) (out : ℕ → List ℕ) (moving : ℕ → Option ℕ) : Prop :=
  ∀ c, s.inUse c = true → CacheInv s c (out c) (moving c)

variable {s s' : SlabState} {c a i : ℕ} {out : List ℕ} {moving : Option ℕ} {k : SlabListKind}
  {outs : ℕ → List ℕ} {movings : ℕ → Option ℕ}

/-! ## Addresses -/

/-- The slots of a slab lie in it. -/
theorem LayoutOk.slotAddr_inside {layout : SlabLayout} (hl : LayoutOk layout)
    (hi : i < layout.objsPerSlab) : a + layout.objOffset ≤ slotAddr layout a i ∧
      slotAddr layout a i < a + 4096 * 2^layout.order := by
  have hnext : (i + 1) * layout.stride ≤ layout.objsPerSlab * layout.stride :=
    Nat.mul_le_mul_right _ hi
  have hfits := hl.fits
  have hstride := hl.stride_pos
  rw [Nat.succ_mul] at hnext
  rw [slotAddr]
  omega

/-- The address of a slot lies in a frame of its slab. -/
theorem SlabOk.slot_frame (o : SlabOk s c out a) (hl : LayoutOk (s.caches c).layout)
    (hi : i < (s.caches c).layout.objsPerSlab) :
    ∃ phys, slotAddr (s.caches c).layout a i = BOOTINFO_HHDM_BASE + phys ∧
      phys < BOOTINFO_HHDM_SIZE ∧ pmmPfnValid s.spans (phys >>> 12) = true ∧
      (s.pages (phys >>> 12)).flags &&& PAGE_F_SLAB ≠ 0 ∧
      (s.pages (phys >>> 12)).privateWord = a := by
  obtain ⟨pfn, ha, hlimit, hframes⟩ := o.frames
  have hin := hl.slotAddr_inside (a := a) hi
  refine ⟨slotAddr (s.caches c).layout a i - BOOTINFO_HHDM_BASE, by omega, by omega, hframes _ ?_⟩
  constructor <;> omega

/-- `slabResolvePointer` in a slab: the header decides. -/
theorem SlabOk.resolve_inside {p : ℕ} (o : SlabOk s c out a) (hle : a ≤ p)
    (hlt : p < a + 4096 * 2^(s.caches c).layout.order) :
    slabResolvePointer s p =
      if p < a + (s.caches c).layout.objOffset then .error .misaligned
      else match slabIndexForOffset (s.caches c).layout
        (p - (a + (s.caches c).layout.objOffset)) with
        | none => .error .misaligned
        | some i => .ok (a, i) := by
  obtain ⟨pfn, ha, hlimit, hframes⟩ := o.frames
  have hne : a ≠ 0 := by
    rw [ha, BOOTINFO_HHDM_BASE]
    omega
  obtain ⟨hvalid, hflag, hword⟩ := hframes ((p - BOOTINFO_HHDM_BASE) >>> 12) (by
    constructor <;> omega)
  unfold slabResolvePointer
  rw [if_neg, if_neg]
  · simp only [hword, o.cache_eq, o.objBase_eq]
    exact (if_neg (by simp [hvalid, hflag])).trans (if_neg (by simp [hne, o.magic_eq]))
  · omega
  · simp only [BOOTINFO_HHDM_BASE, BOOTINFO_HHDM_SIZE, VM_KVA_BASE] at *
    omega

section

variable (v : CacheInv s c out moving) (ha : a ∈ (s.caches c).lists k)

include v ha

/-- Slots of slabs of one cache have different addresses. -/
theorem CacheInv.slot_inj {k' : SlabListKind} {b j : ℕ} (hb : b ∈ (s.caches c).lists k')
    (hi : i < (s.caches c).layout.objsPerSlab) (hj : j < (s.caches c).layout.objsPerSlab)
    (h : slotAddr (s.caches c).layout a i = slotAddr (s.caches c).layout b j) : a = b ∧ i = j := by
  obtain ⟨x, hx, -, -, -, hxa⟩ := (v.slab ha).slot_frame v.layout hi
  obtain ⟨y, hy, -, -, -, hyb⟩ := (v.slab hb).slot_frame v.layout hj
  have hxy : x = y := by omega
  have hab : a = b := by rw [← hxa, ← hyb, hxy]
  subst hab
  refine ⟨rfl, Nat.eq_of_mul_eq_mul_right v.layout.stride_pos ?_⟩
  simp only [slotAddr] at h
  omega

/-- `slabResolvePointer` finds the slab and the slot of an object's address. -/
theorem CacheInv.resolve (hi : i < (s.caches c).layout.objsPerSlab) :
    slabResolvePointer s (slotAddr (s.caches c).layout a i) = .ok (a, i) := by
  obtain ⟨hlow, hhigh⟩ := v.layout.slotAddr_inside (a := a) hi
  have hoff : slotAddr (s.caches c).layout a i - (a + (s.caches c).layout.objOffset) =
      i * (s.caches c).layout.stride := Nat.add_sub_cancel_left ..
  rw [(v.slab ha).resolve_inside (by omega) hhigh, if_neg (Nat.not_lt.2 hlow), hoff,
    (slabIndexForOffset_eq_some v.layout).2 ⟨hi, rfl⟩]

end

/-- `slabSlot` is the address of the slot. -/
theorem SlabOk.slabSlot_eq (o : SlabOk s c out a) :
    slabSlot s a i = slotAddr (s.caches c).layout a i := by
  rw [slabSlot, o.objBase_eq, o.cache_eq, slotAddr]

/-! ## What a write leaves alone -/

/-- The frames of the slab `a` of the cache `c` are as they were. -/
def PagesKept (s s' : SlabState) (c a : ℕ) : Prop :=
  ∀ pfn f, a = BOOTINFO_HHDM_BASE + pfn * 4096 → InBlock f pfn (s.caches c).layout.order →
    s'.pages f = s.pages f

/-- A slab whose header is unchanged besides the list it is on, and whose frames are unchanged. -/
theorem SlabOk.congr (o : SlabOk s c out a) (hlay : (s'.caches c).layout = (s.caches c).layout)
    (hspans : s'.spans = s.spans) {l : SlabListKind}
    (hslab : s'.slabs a = { s.slabs a with list := l })
    (hpage : PagesKept s s' c a) : SlabOk s' c out a := by
  obtain ⟨pfn, ha, hlimit, hframes⟩ := o.frames
  refine ⟨?_, ?_, ?_, ?_, ?_, ⟨pfn, ha, by rwa [hlay], fun f hf => ?_⟩, ?_⟩
  · rw [hslab]; exact o.magic_eq
  · rw [hslab]; exact o.cache_eq
  · rw [hslab, hlay]; exact o.objBase_eq
  · rw [hslab, hlay]; exact o.objCount_eq
  · rw [hslab, hlay]; exact o.order_eq
  · rw [hlay] at hf
    rw [hspans, hpage pfn f ha hf]
    exact hframes f hf
  · rw [hslab, hlay]; exact ⟨o.free.chain, o.free.marked⟩

/-- A cache whose slabs and frames are unchanged. The invariant does not read the entries of the
magazine or its count of allocations. -/
theorem CacheInv.frame (v : CacheInv s c out moving) {mag : SlabMagazine}
    (hcache : s'.caches c = { s.caches c with bspMag := mag })
    (hcap : mag.capacity = (s.caches c).bspMag.capacity)
    (hbatch : mag.batch = (s.caches c).bspMag.batch) (hspans : s'.spans = s.spans)
    (hslab : ∀ {k a}, a ∈ (s.caches c).lists k → s'.slabs a = s.slabs a)
    (hpage : ∀ {k a}, a ∈ (s.caches c).lists k → PagesKept s s' c a) :
    CacheInv s' c out moving := by
  refine ⟨?_, ?_, ?_, ?_, ?_, ?_, ?_, ?_, v.out_nodup, ?_, ?_, ?_, ?_⟩ <;> rw [hcache]
  · exact v.layout
  · exact v.magic_eq
  · exact v.onNone_eq
  · exact v.nodup
  · intro k a ha; rw [hslab ha]; exact v.list_eq ha
  · intro k a ha
    exact (v.slab ha).congr (by rw [hcache]) hspans (hslab ha) (hpage ha)
  · intro k a ha; rw [hslab ha]; exact v.homed ha
  · exact v.out_slot
  · exact v.counts
  · rw [hcap]; exact v.capacity_ge
  · rw [hcap]; exact v.capacity_le
  · rw [hcap, hbatch]; exact v.batch_eq

/-- The order of the objects that are out does not matter. -/
theorem CacheInv.perm (v : CacheInv s c out moving) {out' : List ℕ} (h : out.Perm out') :
    CacheInv s c out' moving :=
  { v with
    slab := fun ha =>
      { v.slab ha with free := (v.slab ha).free.congr_busy fun _ _ => h.mem_iff.symm }
    out_slot := fun p hp => v.out_slot p (h.mem_iff.2 hp)
    out_nodup := h.nodup_iff.1 v.out_nodup }

/-- A call on the cache `c` that leaves the records, slabs, and frames of the other caches. -/
theorem SlabInv.of_self (v : SlabInv s outs movings)
    {out1 : List ℕ} {moving1 : Option ℕ} (hinUse : s'.inUse = s.inUse) (hspans : s'.spans = s.spans)
    (hcaches : ∀ c', c' ≠ c → s'.caches c' = s.caches c')
    (hslabs : ∀ {c' k a}, c' ≠ c → s.inUse c' = true → a ∈ (s.caches c').lists k →
      s'.slabs a = s.slabs a)
    (hpages : ∀ {c' k a}, c' ≠ c → s.inUse c' = true → a ∈ (s.caches c').lists k →
      PagesKept s s' c' a)
    (hself : CacheInv s' c out1 moving1) :
    SlabInv s' (update outs c out1) (update movings c moving1) := by
  intro c' hc'
  rw [hinUse] at hc'
  by_cases h : c' = c
  · subst h; simpa using hself
  · rw [update_of_ne h, update_of_ne h]
    exact (v c' hc').frame (hcaches c' h) rfl rfl hspans (hslabs h hc') (hpages h hc')

/-- Slabs of different caches are different. -/
theorem SlabInv.slab_ne (v : SlabInv s outs movings)
    {c' b : ℕ} {k' : SlabListKind} (hc : s.inUse c = true) (hc' : s.inUse c' = true) (hne : c' ≠ c)
    (ha : a ∈ (s.caches c).lists k) (hb : b ∈ (s.caches c').lists k') : b ≠ a := by
  rintro rfl
  exact hne (((v c' hc').slab hb).cache_eq.symm.trans ((v c hc).slab ha).cache_eq)

/-! ## Taking and returning objects -/

section

variable (v : CacheInv s c out moving) (ha : a ∈ (s.caches c).lists k)
  (hm : moving = none ∨ moving = some a)

include v ha hm

/-- The header of a slab is rewritten, with the same identity and another free list. -/
theorem CacheInv.writeSlab {slab : Slab} {out' : List ℕ}
    (hsame : slab.magic = (s.slabs a).magic ∧ slab.cache = (s.slabs a).cache ∧
      slab.objBase = (s.slabs a).objBase ∧ slab.objCount = (s.slabs a).objCount ∧
      slab.order = (s.slabs a).order ∧ slab.list = (s.slabs a).list)
    (hfree : FreeListOk slab fun i => slotAddr (s.caches c).layout a i ∈ out')
    (hother : ∀ {k b i}, b ∈ (s.caches c).lists k → b ≠ a → i < (s.caches c).layout.objsPerSlab →
      (slotAddr (s.caches c).layout b i ∈ out' ↔ slotAddr (s.caches c).layout b i ∈ out))
    (hslot : ∀ p ∈ out', p ∈ out ∨ ∃ i < (s.caches c).layout.objsPerSlab,
      p = slotAddr (s.caches c).layout a i) (hnodup : out'.Nodup) :
    CacheInv (s.setSlab a slab) c out' (some a) := by
  obtain ⟨hs1, hs2, hs3, hs4, hs5, hs6⟩ := hsame
  have hself : (s.setSlab a slab).slabs a = slab := update_self ..
  have hne : ∀ {b}, b ≠ a → (s.setSlab a slab).slabs b = s.slabs b := fun h =>
    update_of_ne h ..
  refine ⟨v.layout, v.magic_eq, v.onNone_eq, v.nodup, fun {k' b} hb => ?_, fun {k' b} hb => ?_,
    fun {k' b} hb hmb => ?_, fun p hp => ?_, hnodup, v.counts, v.capacity_ge,
    v.capacity_le, v.batch_eq⟩
  · by_cases h : b = a
    · subst h; rw [hself, hs6]; exact v.list_eq hb
    · rw [hne h]; exact v.list_eq hb
  · have o := v.slab hb
    by_cases h : b = a
    · subst h
      refine ⟨?_, ?_, ?_, ?_, ?_, o.frames, ?_⟩ <;> rw [hself]
      · rw [hs1]; exact o.magic_eq
      · rw [hs2]; exact o.cache_eq
      · rw [hs3]; exact o.objBase_eq
      · rw [hs4]; exact o.objCount_eq
      · rw [hs5]; exact o.order_eq
      · exact hfree
    · have o' : SlabOk (s.setSlab a slab) c out b := o.congr rfl rfl (hne h) fun _ _ _ _ => rfl
      refine { o' with free := ?_ }
      rw [hne h]
      exact o.free.congr_busy fun i hi => hother hb h (o.objCount_eq ▸ hi)
  · have h : b ≠ a := fun e => hmb (by rw [e])
    rw [hne h]
    refine v.homed hb ?_
    rcases hm with rfl | rfl
    · exact fun e => nomatch e
    · exact fun e => h (Option.some.inj e).symm
  · rcases hslot p hp with h | ⟨i, hi, rfl⟩
    · exact v.out_slot p h
    · exact ⟨k, a, ha, i, hi, rfl⟩

/-- Taking an object off the free list of a slab. -/
theorem CacheInv.pop (hfree : 0 < (s.slabs a).freeCount) :
    CacheInv (s.setSlab a (slabFreeListPop (s.slabs a)).2) c
      (slotAddr (s.caches c).layout a (slabFreeListPop (s.slabs a)).1 :: out) (some a) := by
  have o := v.slab ha
  obtain ⟨hlt, hbusy, hpop⟩ := slabFreeListPop_spec o.free hfree
  rw [o.objCount_eq] at hlt
  refine v.writeSlab ha hm ⟨rfl, rfl, rfl, rfl, rfl, rfl⟩ ?_ (fun {k' b j} hb hne hj => ?_)
    (fun p hp => ?_) (nodup_cons.2 ⟨hbusy, v.out_nodup⟩)
  · refine hpop.congr_busy fun j hj => ?_
    have hj' : j < (s.caches c).layout.objsPerSlab := o.objCount_eq ▸ hj
    rw [mem_cons]
    exact or_congr_left ⟨fun h => (v.slot_inj ha ha hj' hlt h).2, fun h => by rw [h]⟩
  · rw [mem_cons, or_iff_right fun h => hne (v.slot_inj hb ha hj hlt h).1]
  · rcases mem_cons.1 hp with rfl | hp
    · exact .inr ⟨_, hlt, rfl⟩
    · exact .inl hp

end

/-- Putting an object back on the free list of its slab. -/
theorem CacheInv.push (v : CacheInv s c (slotAddr (s.caches c).layout a i :: out) none)
    (ha : a ∈ (s.caches c).lists k) (hi : i < (s.caches c).layout.objsPerSlab) :
    CacheInv (s.setSlab a (slabFreeListPush (s.slabs a) i)) c out (some a) := by
  have o := v.slab ha
  obtain ⟨hnot, hnodup⟩ := nodup_cons.1 v.out_nodup
  have hpush := slabFreeListPush_spec o.free (by rw [o.objCount_eq]; exact hi)
    mem_cons_self (by rw [o.objCount_eq]; exact v.layout.objs_le)
  refine v.writeSlab ha (.inl rfl) ⟨rfl, rfl, rfl, rfl, rfl, rfl⟩ ?_ (fun {k' b j} hb hne hj => ?_)
    (fun p hp => .inl (mem_cons_of_mem _ hp)) hnodup
  · refine hpush.congr_busy fun j hj => ?_
    have hj' : j < (s.caches c).layout.objsPerSlab := o.objCount_eq ▸ hj
    have hinj : slotAddr (s.caches c).layout a j = slotAddr (s.caches c).layout a i → j = i :=
      fun h => (v.slot_inj ha ha hj' hi h).2
    rw [mem_cons]
    constructor
    · intro h
      exact ⟨fun e => hnot (e ▸ h), .inr h⟩
    · rintro ⟨hne, h | h⟩
      · exact absurd (hinj h) hne
      · exact h
  · rw [mem_cons, or_iff_right fun h => hne (v.slot_inj hb ha hj hi h).1]

/-! ## Moving, adding, and releasing slabs -/

section

variable (v : CacheInv s c out moving) (ha : a ∈ (s.caches c).lists k)

include v ha

/-- A moved slab is on the new list only, and the others stay where they were. -/
theorem CacheInv.mem_moveSlab {want k' : SlabListKind} (hwant : want ≠ k) {b : ℕ} :
    b ∈ (moveSlab (s.caches c) k want a).lists k' ↔
      (b = a ∧ k' = want) ∨ (b ≠ a ∧ b ∈ (s.caches c).lists k') := by
  have honly : ∀ {k'}, a ∈ (s.caches c).lists k' → k' = k := fun h =>
    (v.list_eq h).symm.trans (v.list_eq ha)
  simp only [moveSlab]
  by_cases hw : k' = want
  · subst hw
    rw [update_self, update_of_ne hwant, mem_cons]
    by_cases hb : b = a
    · simp [hb]
    · simp [hb]
  · rw [update_of_ne hw]
    by_cases hk : k' = k
    · subst hk
      rw [update_self, (v.nodup k').mem_erase_iff]
      simp [hw]
    · rw [update_of_ne hk]
      by_cases hb : b = a
      · subst hb
        simp only [hw, and_false, ne_eq, not_true_eq_false, false_and, or_false, iff_false]
        exact fun h => hk (honly h)
      · simp [hb]

theorem CacheInv.moveSlab_nodup {want : SlabListKind} (hwant : want ≠ k) (k' : SlabListKind) :
    ((moveSlab (s.caches c) k want a).lists k').Nodup := by
  simp only [moveSlab]
  by_cases hw : k' = want
  · subst hw
    rw [update_self, update_of_ne hwant]
    refine nodup_cons.2 ⟨fun h => hwant ?_, v.nodup k'⟩
    exact (v.list_eq h).symm.trans (v.list_eq ha)
  · rw [update_of_ne hw]
    by_cases hk : k' = k
    · subst hk; rw [update_self]; exact (v.nodup k').erase a
    · rw [update_of_ne hk]; exact v.nodup k'

/-- A move between two of the three lists keeps the number of slabs, and the count of empty slabs
follows it. -/
theorem CacheInv.moveSlab_counts
    {want : SlabListKind} (hwant : want ≠ k) (hnone : want ≠ .onNone) (hknone : k ≠ .onNone) :
    CountsOk (moveSlab (s.caches c) k want a) := by
  have hpos : 0 < ((s.caches c).lists k).length := length_pos_of_mem ha
  have hcounts := v.counts
  cases k <;> cases want <;> simp_all [CountsOk, moveSlab, update] <;> omega

end

theorem slabWant_ne_onNone (slab : Slab) : slabWant slab ≠ .onNone := by
  unfold slabWant
  split_ifs <;> decide

/-- The slab `a` leaves its list, if it was on one, and goes to the list `want`, if there is one. -/
theorem CacheInv.relist (v : CacheInv s c out moving) (want : Option SlabListKind)
    (hm : moving = none ∨ moving = some a) (hlay : (s'.caches c).layout = (s.caches c).layout)
    (hmagic : (s'.caches c).magic = (s.caches c).magic)
    (hmag : (s'.caches c).bspMag = (s.caches c).bspMag)
    (hmem : ∀ {k b}, b ∈ (s'.caches c).lists k ↔
      (b = a ∧ want = some k) ∨ (b ≠ a ∧ b ∈ (s.caches c).lists k))
    (hnodup : ∀ k, ((s'.caches c).lists k).Nodup)
    (hcounts : CountsOk (s'.caches c)) (hspans : s'.spans = s.spans)
    (hslabs : ∀ {b}, b ≠ a → s'.slabs b = s.slabs b)
    (hpages : ∀ {k b}, b ∈ (s.caches c).lists k → b ≠ a → PagesKept s s' c b)
    (hnew : ∀ {k}, want = some k →
      (s'.slabs a).list = k ∧ SlabOk s' c out a ∧ slabWant (s'.slabs a) = k)
    (hgone : want = none → ∀ i < (s.caches c).layout.objsPerSlab,
      slotAddr (s.caches c).layout a i ∉ out) : CacheInv s' c out none := by
  refine ⟨hlay ▸ v.layout, hmagic ▸ v.magic_eq, ?_, hnodup, fun {k b} hb => ?_, fun {k b} hb => ?_,
    fun {k b} hb _ => ?_, fun p hp => ?_, v.out_nodup, hcounts, hmag ▸ v.capacity_ge,
    hmag ▸ v.capacity_le, hmag ▸ v.batch_eq⟩
  · refine eq_nil_iff_forall_not_mem.2 fun b hb => ?_
    rcases hmem.1 hb with ⟨rfl, h⟩ | ⟨-, h⟩
    · exact slabWant_ne_onNone _ (hnew h).2.2
    · rw [v.onNone_eq] at h; exact not_mem_nil h
  · rcases hmem.1 hb with ⟨rfl, h⟩ | ⟨h, hb⟩
    · exact (hnew h).1
    · rw [hslabs h]; exact v.list_eq hb
  · rcases hmem.1 hb with ⟨rfl, h⟩ | ⟨h, hb⟩
    · exact (hnew h).2.1
    · exact (v.slab hb).congr hlay hspans (hslabs h) (hpages hb h)
  · rcases hmem.1 hb with ⟨rfl, h⟩ | ⟨h, hb⟩
    · exact (hnew h).2.2
    · rw [hslabs h]
      refine v.homed hb ?_
      rcases hm with rfl | rfl
      · exact fun e => nomatch e
      · exact fun e => h (Option.some.inj e).symm
  · obtain ⟨k, b, hb, i, hi, rfl⟩ := v.out_slot p hp
    rw [hlay]
    by_cases h : b = a
    · subst h
      cases want with
      | none => exact absurd hp (hgone rfl i hi)
      | some k => exact ⟨k, b, hmem.2 (.inl ⟨rfl, rfl⟩), i, hi, rfl⟩
    · exact ⟨k, b, hmem.2 (.inr ⟨h, hb⟩), i, hi, rfl⟩

/-- `slabRehomeLocked` settles the slab that is moving. -/
theorem CacheInv.rehome (v : CacheInv s c out (some a)) (ha : a ∈ (s.caches c).lists k) :
    CacheInv (slabRehomeLocked s c a) c out none := by
  obtain rfl := v.list_eq ha
  unfold slabRehomeLocked
  simp only
  split_ifs with hw
  · refine { v with homed := fun {k' b} hb _ => ?_ }
    by_cases h : b = a
    · subst h; rw [← hw]; exact v.list_eq hb
    · exact v.homed hb fun e => h (Option.some.inj e).symm
  have hnone : (s.slabs a).list ≠ .onNone := by
    intro h
    rw [h, v.onNone_eq] at ha
    exact not_mem_nil ha
  have hcounts := v.moveSlab_counts ha (Ne.symm hw) (slabWant_ne_onNone _) hnone
  have hmem : ∀ {k' b},
      b ∈ (moveSlab (s.caches c) (s.slabs a).list (slabWant (s.slabs a)) a).lists k' ↔ _ :=
        v.mem_moveSlab ha (Ne.symm hw)
  have hnodup := v.moveSlab_nodup ha (Ne.symm hw)
  set s' :=
    (s.setCache c (moveSlab (s.caches c) (s.slabs a).list (slabWant (s.slabs a)) a)).setSlab a
      { s.slabs a with list := slabWant (s.slabs a) }
  have hc : s'.caches c = moveSlab (s.caches c) (s.slabs a).list (slabWant (s.slabs a)) a :=
    update_self ..
  have hself : s'.slabs a = { s.slabs a with list := slabWant (s.slabs a) } := update_self ..
  have hlay : (s'.caches c).layout = (s.caches c).layout := by rw [hc]; rfl
  rw [← hc] at hcounts hmem hnodup
  refine v.relist (some (slabWant (s.slabs a))) (.inr rfl) hlay (by rw [hc]; rfl)
    (by rw [hc]; rfl) (fun {k' b} => ?_) hnodup hcounts rfl (fun h => update_of_ne h ..)
    (fun _ _ _ _ _ _ => rfl) (fun hk => ?_) fun h => nomatch h
  · rw [hmem, Option.some_inj, eq_comm (a := k')]
  · cases hk
    rw [hself]
    exact ⟨rfl, (v.slab ha).congr hlay rfl hself fun _ _ _ _ => rfl, rfl⟩

/-- The block that `pmmAllocPages` returned is fresh: it has records, it lies in the direct map, and
none of its frames is in a slab. -/
def FreshBlock (s : SlabState) (order pfn : ℕ) : Prop :=
  (pfn + 2^order) * 4096 ≤ BOOTINFO_HHDM_SIZE ∧ ∀ f, InBlock f pfn order →
    pmmPfnValid s.spans f = true ∧ ∀ c k a, s.inUse c = true → a ∈ (s.caches c).lists k →
      ¬ InBlock f ((a - BOOTINFO_HHDM_BASE) >>> 12) (s.slabs a).order

/-- Every block that the memory manager returns is fresh at the time. -/
def PmmFresh (pmm : PmmAnswers) : Prop :=
  ∀ s order pfn, pmm s order = some pfn → FreshBlock s order pfn

/-- The frame number of a slab's address. -/
theorem pfn_of_addr {pfn : ℕ} :
    (BOOTINFO_HHDM_BASE + pfn * 4096 - BOOTINFO_HHDM_BASE) >>> 12 = pfn := by
  rw [Nat.add_sub_cancel_left, Nat.shiftRight_eq_div_pow]
  exact Nat.mul_div_cancel _ (by decide)

/-- The frames of a slab are not fresh. -/
theorem CacheInv.not_fresh (v : CacheInv s c out moving) (hc : s.inUse c = true)
    (ha : a ∈ (s.caches c).lists k) {pfn order q f : ℕ} (hfresh : FreshBlock s order q)
    (hpfn : a = BOOTINFO_HHDM_BASE + pfn * 4096) (hf : InBlock f pfn (s.caches c).layout.order) :
    ¬ InBlock f q order := by
  intro hq
  refine (hfresh.2 f hq).2 c k a hc ha ?_
  rw [hpfn, pfn_of_addr, ← hpfn, (v.slab ha).order_eq]
  exact hf

/-- The frames of a fresh block carry the mark of their slab, and the others keep theirs. -/
theorem tagPages_of_inBlock {pages : PageArray} {pfn order f : ℕ} (h : InBlock f pfn order) :
    (tagPages pages pfn order a f).flags &&& PAGE_F_SLAB ≠ 0 ∧
      (tagPages pages pfn order a f).privateWord = a := by
  simp only [tagPages, if_pos h, and_true]
  rw [Nat.and_or_distrib_right]
  exact fun h0 => absurd (Nat.or_eq_zero_iff.1 h0).2 (by decide)

/-- A slab with every object free joins the cache. -/
theorem CacheInv.addSlab (v : CacheInv s c out none) (hnot : ∀ k, a ∉ (s.caches c).lists k)
    (hcache : s'.caches c = { s.caches c with
      lists := update (s.caches c).lists .onEmpty (a :: (s.caches c).lists .onEmpty)
      slabCount := (s.caches c).slabCount + 1
      emptySlabCount := (s.caches c).emptySlabCount + 1 })
    (hspans : s'.spans = s.spans) (hslabs : ∀ {b}, b ≠ a → s'.slabs b = s.slabs b)
    (hpages : ∀ {k b}, b ∈ (s.caches c).lists k → PagesKept s s' c b)
    (hnew : SlabOk s' c [] a) (hlist : (s'.slabs a).list = .onEmpty)
    (hcount : (s'.slabs a).freeCount = (s'.slabs a).objCount) : CacheInv s' c out none := by
  have hlay : (s'.caches c).layout = (s.caches c).layout := by rw [hcache]
  have hne : ∀ {k b}, b ∈ (s.caches c).lists k → b ≠ a := fun hb e => hnot _ (e ▸ hb)
  have hold : ∀ {k b}, b ∈ (s.caches c).lists k → SlabOk s' c out b := fun hb =>
    (v.slab hb).congr hlay hspans (hslabs (hne hb)) (hpages hb)
  -- No object that is out lies in the new slab: the record of its frame names another one.
  have hfree : ∀ i < (s.caches c).layout.objsPerSlab, slotAddr (s.caches c).layout a i ∉ out := by
    intro i hi hout
    obtain ⟨k, b, hb, j, hj, h⟩ := v.out_slot _ hout
    rw [← hlay] at h hi hj
    obtain ⟨x, hx, -, -, -, hxa⟩ := hnew.slot_frame (hlay ▸ v.layout) hi
    obtain ⟨y, hy, -, -, -, hyb⟩ := (hold hb).slot_frame (hlay ▸ v.layout) hj
    have hxy : x = y := by omega
    exact hne hb (by rw [← hyb, ← hxa, hxy])
  refine v.relist (some .onEmpty) (.inl rfl) hlay (by rw [hcache]) (by rw [hcache])
    (fun {k b} => ?_) (fun k => ?_) ?_ hspans hslabs (fun hb _ => hpages hb) (fun hk => ?_)
    fun h => nomatch h
  · rw [hcache]
    by_cases hk : k = .onEmpty
    · subst hk
      by_cases hb : b = a <;> simp [hb]
    · have hb : b ∈ (s.caches c).lists k → b ≠ a := hne
      simpa [hk, Ne.symm hk] using hb
  · rw [hcache]
    by_cases hk : k = .onEmpty
    · subst hk; simpa using ⟨hnot _, v.nodup _⟩
    · simpa [hk] using v.nodup k
  · obtain ⟨hcount, hempty⟩ := v.counts
    rw [hcache]
    simp [CountsOk, hcount, hempty]
    omega
  · cases hk
    have hpos := v.layout.objs_pos
    refine ⟨hlist, { hnew with free := hnew.free.congr_busy fun i hi => ?_ }, ?_⟩
    · rw [hnew.objCount_eq, hlay] at hi
      simpa [hlay] using hfree i hi
    · rw [slabWant, hcount, hnew.objCount_eq, hlay, if_neg hpos.ne', if_pos rfl]

/-- A new slab begins at the address of a block that the memory manager hands out. -/
theorem slabGrow_eq_some {pmm : PmmAnswers} {s1 : SlabState} (h : slabGrow pmm s c = some (a, s1)) :
    ∃ pfn, pmm s (s.caches c).layout.order = some pfn ∧ a = BOOTINFO_HHDM_BASE + pfn * 4096 ∧
      s1 = { s.setSlab a (newSlab (s.slabs a) (s.caches c).layout c a) with
        pages := tagPages s.pages pfn (s.caches c).layout.order a } := by
  unfold slabGrow at h
  simp only at h
  split at h
  · cases h
  next pfn hp =>
    cases h
    exact ⟨pfn, hp, by rw [Nat.shiftLeft_eq], rfl⟩

/-- `slabGrow` adds a slab to the cache. -/
theorem SlabInv.grow {pmm : PmmAnswers}
    (v : SlabInv s outs movings) (hc : s.inUse c = true) (hm : movings c = none)
    (hfresh : PmmFresh pmm)
    {s1 : SlabState} (h : slabGrow pmm s c = some (a, s1)) :
    SlabInv (slabAddEmpty s1 c a) outs movings ∧
      a ∈ ((slabAddEmpty s1 c a).caches c).lists .onEmpty ∧
      0 < ((slabAddEmpty s1 c a).slabs a).freeCount := by
  obtain ⟨pfn, hp, ha, hs1⟩ := slabGrow_eq_some h
  have hf := hfresh _ _ _ hp
  have v' := v c hc
  rw [hm] at v'
  have hnot : ∀ {c'}, s.inUse c' = true → ∀ k, a ∉ (s.caches c').lists k :=
    fun hc' k hmem => (v _ hc').not_fresh hc' hmem hf ha (inBlock_self _ _) (inBlock_self _ _)
  generalize hs' : slabAddEmpty s1 c a = s'
  have hcache : s'.caches c = { s.caches c with
      lists := update (s.caches c).lists .onEmpty (a :: (s.caches c).lists .onEmpty)
      slabCount := (s.caches c).slabCount + 1
      emptySlabCount := (s.caches c).emptySlabCount + 1 } := by
    rw [← hs', hs1]; exact update_self ..
  have hcaches : ∀ c', c' ≠ c → s'.caches c' = s.caches c' := fun c' hne => by
    rw [← hs', hs1]; exact update_of_ne hne ..
  have hself : s'.slabs a =
      { newSlab (s.slabs a) (s.caches c).layout c a with list := .onEmpty } := by
    rw [← hs', hs1]; simp [slabAddEmpty, SlabState.setSlab, SlabState.setCache]
  have hslabs : ∀ {b}, b ≠ a → s'.slabs b = s.slabs b := fun hne => by
    rw [← hs', hs1]; simp [slabAddEmpty, SlabState.setSlab, SlabState.setCache, hne]
  have hpg : s'.pages = tagPages s.pages pfn (s.caches c).layout.order a := by
    rw [← hs', hs1]; rfl
  have hpages : ∀ {c' k b}, s.inUse c' = true → b ∈ (s.caches c').lists k → PagesKept s s' c' b :=
    fun hc' hb q f hq hbf => by rw [hpg]; exact if_neg ((v _ hc').not_fresh hc' hb hf hq hbf)
  have hrest : s'.inUse = s.inUse ∧ s'.spans = s.spans := by rw [← hs', hs1]; exact ⟨rfl, rfl⟩
  have hlay : (s'.caches c).layout = (s.caches c).layout := by rw [hcache]
  have hnew : SlabOk s' c [] a := by
    have hcarve := slabCarve_freeListOk
      { s.slabs a with
        magic := SLAB_MAGIC, cache := c, objBase := a + (s.caches c).layout.objOffset,
        objCount := (s.caches c).layout.objsPerSlab, order := (s.caches c).layout.order,
        list := .onNone } v'.layout.objs_le
    refine ⟨?_, ?_, ?_, ?_, ?_, ⟨pfn, ha, by rw [hlay]; exact hf.1, fun f hbf => ?_⟩, ?_⟩
    · rw [hself]; rfl
    · rw [hself]; rfl
    · rw [hself, hlay]; rfl
    · rw [hself, hlay]; rfl
    · rw [hself, hlay]; rfl
    · rw [hlay] at hbf
      rw [hrest.2, hpg]
      exact ⟨(hf.2 f hbf).1, tagPages_of_inBlock hbf⟩
    · rw [hself]
      refine FreeListOk.congr_busy ⟨hcarve.chain, hcarve.marked⟩ fun i _ => ?_
      simp
  have hadd : CacheInv s' c (outs c) none := by
    refine v'.addSlab (hnot hc) hcache hrest.2 hslabs (hpages hc) hnew ?_ ?_
    · rw [hself]
    · rw [hself]; rfl
  refine ⟨?_, ?_, ?_⟩
  · have := v.of_self hrest.1 hrest.2 hcaches
      (fun hne hc' hb => hslabs fun e => hnot hc' _ (e ▸ hb))
      (fun _ => hpages) hadd
    rwa [update_eq_self, ← hm, update_eq_self] at this
  · rw [hcache]; simp
  · rw [hself]; exact v'.layout.objs_pos

/-- Every object of an empty slab is on its free list. -/
theorem CacheInv.notMem_out_of_empty (v : CacheInv s c out none)
    (ha : a ∈ (s.caches c).lists .onEmpty) (hi : i < (s.caches c).layout.objsPerSlab) :
    slotAddr (s.caches c).layout a i ∉ out := by
  have o := v.slab ha
  have hwant := v.homed ha (fun e => nomatch e)
  have hfull : (s.slabs a).freeCount = (s.slabs a).objCount := by
    unfold slabWant at hwant
    split_ifs at hwant
    assumption
  have hcount := o.free.freeCount_eq
  intro hout
  have hmem : i ∈ (List.range (s.slabs a).objCount).filter fun i =>
      slotAddr (s.caches c).layout a i ∈ out := by
    rw [mem_filter, mem_range, o.objCount_eq]
    exact ⟨hi, by simpa using hout⟩
  have hpos := length_pos_of_mem hmem
  omega

/-- An empty slab leaves the cache. -/
theorem CacheInv.removeSlab (v : CacheInv s c out none) {rest : List ℕ}
    (h : (s.caches c).lists .onEmpty = a :: rest)
    (hcache : s'.caches c = { s.caches c with
      lists := update (s.caches c).lists .onEmpty rest
      emptySlabCount := (s.caches c).emptySlabCount - 1
      slabCount := (s.caches c).slabCount - 1 })
    (hspans : s'.spans = s.spans) (hslabs : ∀ {b}, b ≠ a → s'.slabs b = s.slabs b)
    (hpages : ∀ {k b}, b ∈ (s.caches c).lists k → b ≠ a → PagesKept s s' c b) :
    CacheInv s' c out none := by
  have ha : a ∈ (s.caches c).lists .onEmpty := by rw [h]; exact mem_cons_self
  have hnodup := v.nodup .onEmpty
  rw [h, nodup_cons] at hnodup
  refine v.relist none (.inl rfl) (by rw [hcache]) (by rw [hcache]) (by rw [hcache])
    (fun {k b} => ?_) (fun k => ?_) ?_ hspans hslabs hpages (fun hk => nomatch hk)
    fun _ i hi => v.notMem_out_of_empty ha hi
  · rw [hcache, or_iff_right fun h => nomatch h.2]
    by_cases hk : k = .onEmpty
    · subst hk
      simp only [update_self, h, mem_cons]
      constructor
      · exact fun hb => ⟨fun e => hnodup.1 (e ▸ hb), .inr hb⟩
      · exact fun hb => hb.2.resolve_left hb.1
    · simp only [update_of_ne hk]
      refine ⟨fun hb => ⟨fun e => hk ?_, hb⟩, fun hb => hb.2⟩
      rw [← v.list_eq hb, e]
      exact v.list_eq ha
  · rw [hcache]
    by_cases hk : k = .onEmpty
    · subst hk; simpa using hnodup.2
    · simpa [hk] using v.nodup k
  · obtain ⟨hcount, hempty⟩ := v.counts
    rw [h, length_cons] at hcount hempty
    rw [hcache]
    simp [CountsOk]
    omega

/-- The address `p` lies in the block `b`, given as frame and order. -/
def InFrames (b : ℕ × ℕ) (p : ℕ) : Prop :=
  BOOTINFO_HHDM_BASE + b.1 * 4096 ≤ p ∧ p < BOOTINFO_HHDM_BASE + (b.1 + 2^b.2) * 4096

/-- One round of `slabReclaimEmptyLocked`: an empty slab goes back to the memory manager, and no
object that is out lies in it. -/
theorem SlabInv.release (v : SlabInv s outs movings)
    (hc : s.inUse c = true) (hm : movings c = none) {rest : List ℕ}
    (h : (s.caches c).lists .onEmpty = a :: rest)
    (hs' : slabReleaseToPmm (s.setCache c { s.caches c with
        lists := update (s.caches c).lists .onEmpty rest
        emptySlabCount := (s.caches c).emptySlabCount - 1
        slabCount := (s.caches c).slabCount - 1 }) a = s') :
    SlabInv s' outs movings ∧ ∃ b, s'.freed = b :: s.freed ∧
      ∀ c', s.inUse c' = true → ∀ p ∈ outs c', ¬ InFrames b p := by
  have ha : a ∈ (s.caches c).lists .onEmpty := by rw [h]; exact mem_cons_self
  have v' := v c hc
  rw [hm] at v'
  have o := v'.slab ha
  obtain ⟨pfn, hpfn, hlimit, hframes⟩ := o.frames
  have haddr : (a - BOOTINFO_HHDM_BASE) >>> 12 = pfn := by rw [hpfn, pfn_of_addr]
  have hcache : s'.caches c = { s.caches c with
      lists := update (s.caches c).lists .onEmpty rest
      emptySlabCount := (s.caches c).emptySlabCount - 1
      slabCount := (s.caches c).slabCount - 1 } := by rw [← hs']; exact update_self ..
  have hcaches : ∀ c', c' ≠ c → s'.caches c' = s.caches c' := fun c' hne => by
    rw [← hs']; exact update_of_ne hne ..
  have hslabs : ∀ {b}, b ≠ a → s'.slabs b = s.slabs b := fun hne => by
    rw [← hs']; exact update_of_ne hne ..
  have hpg : s'.pages = untagPages s.pages pfn (s.caches c).layout.order := by
    rw [← haddr, ← o.order_eq, ← hs']; rfl
  have hfreed : s'.freed = (pfn, (s.caches c).layout.order) :: s.freed := by
    rw [← haddr, ← o.order_eq, ← hs']; rfl
  have hrest : s'.inUse = s.inUse ∧ s'.spans = s.spans := by rw [← hs']; exact ⟨rfl, rfl⟩
  -- A frame of another slab is not a frame of this one: its record names the other slab.
  have hdisj : ∀ {c' k b f}, s.inUse c' = true → b ∈ (s.caches c').lists k → b ≠ a →
      (s.pages f).privateWord = b → ¬ InBlock f pfn (s.caches c).layout.order := by
    intro c' k b f hc' hb hne hf hin
    exact hne (hf.symm.trans (hframes f hin).2.2)
  have hpages : ∀ {c' k b}, s.inUse c' = true → b ∈ (s.caches c').lists k → b ≠ a →
      PagesKept s s' c' b := by
    intro c' k b hc' hb hne q f hq hbf
    obtain ⟨q', hq', -, hw⟩ := ((v c' hc').slab hb).frames
    have hqq : q = q' := by omega
    rw [hpg]
    exact if_neg (hdisj hc' hb hne (hw f (hqq ▸ hbf)).2.2)
  have hself := v'.removeSlab h hcache hrest.2 hslabs (hpages hc)
  refine ⟨?_, _, hfreed, fun c' hc' p hp hin => ?_⟩
  · have := v.of_self hrest.1 hrest.2 hcaches
      (fun hne hc' hb => hslabs (v.slab_ne hc hc' hne ha hb))
      (fun hne hc' hb => hpages hc' hb (v.slab_ne hc hc' hne ha hb)) hself
    rwa [update_eq_self, ← hm, update_eq_self] at this
  · obtain ⟨k, b, hb, i, hi, rfl⟩ := (v c' hc').out_slot p hp
    obtain ⟨phys, hphys, -, -, -, hw⟩ := ((v c' hc').slab hb).slot_frame (v c' hc').layout hi
    have hin' : InBlock (phys >>> 12) pfn (s.caches c).layout.order := by
      simp only [InFrames] at hin
      constructor <;> omega
    by_cases hne : b = a
    · subst hne
      have hcc : c' = c := ((v c' hc').slab hb).cache_eq.symm.trans o.cache_eq
      subst hcc
      exact v'.notMem_out_of_empty ha hi hp
    · exact hdisj hc' hb hne hw hin'

/-! ## The same moves, with the other caches -/

section

variable (v : SlabInv s outs movings) (hc : s.inUse c = true)

include v hc

/-- A write to the header of a slab of the cache `c` leaves the other caches. -/
theorem SlabInv.of_setSlab
    (ha : a ∈ (s.caches c).lists k) {slab : Slab} {out1 : List ℕ} {moving1 : Option ℕ}
    (hself : CacheInv (s.setSlab a slab) c out1 moving1) :
    SlabInv (s.setSlab a slab) (update outs c out1) (update movings c moving1) :=
  v.of_self rfl rfl (fun _ _ => rfl)
    (fun hne hc' hb => update_of_ne (v.slab_ne hc hc' hne ha hb) ..)
    (fun _ _ _ _ _ _ _ => rfl) hself

/-- `slabRehomeLocked` leaves the other caches. -/
theorem SlabInv.rehome (ha : a ∈ (s.caches c).lists k) (hm : movings c = some a) :
    SlabInv (slabRehomeLocked s c a) outs (update movings c none) := by
  have hv := v c hc
  rw [hm] at hv
  have hself := hv.rehome ha
  set s' := slabRehomeLocked s c a with hs'
  have hall : s'.inUse = s.inUse ∧ s'.spans = s.spans ∧
      (∀ c', c' ≠ c → s'.caches c' = s.caches c') ∧ (∀ b, b ≠ a → s'.slabs b = s.slabs b) ∧
        s'.pages = s.pages := by
    rw [hs', slabRehomeLocked]
    split_ifs
    · exact ⟨rfl, rfl, fun _ _ => rfl, fun _ _ => rfl, rfl⟩
    · exact ⟨rfl, rfl, fun _ h => update_of_ne h .., fun _ h => update_of_ne h ..,
        rfl⟩
  obtain ⟨h1, h2, h3, h4, h5⟩ := hall
  have := v.of_self h1 h2 h3 (fun hne hc' hb => h4 _ (v.slab_ne hc hc' hne ha hb))
    (fun _ _ _ _ _ _ _ => by rw [h5]) hself
  rwa [update_eq_self] at this

/-- A write to the entries of a magazine changes nothing else. -/
theorem SlabInv.setMag (mag : SlabMagazine) (hcap : mag.capacity = (s.caches c).bspMag.capacity)
    (hbatch : mag.batch = (s.caches c).bspMag.batch) :
    SlabInv (s.setCache c { s.caches c with bspMag := mag }) outs movings := by
  have : SlabInv (s.setCache c { s.caches c with bspMag := mag }) (update outs c (outs c))
      (update movings c (movings c)) :=
    v.of_self rfl rfl (fun _ h => update_of_ne h ..) (fun _ _ _ => rfl)
      (fun _ _ _ _ _ _ _ => rfl)
      ((v c hc).frame (update_self ..) hcap hbatch rfl (fun _ => rfl) fun _ _ _ _ _ => rfl)
  rwa [update_eq_self, update_eq_self] at this

end

/-- A slab of the cache `c` may be counted as moving. -/
theorem SlabInv.weaken {m : Option ℕ} (hm : m = none ∨ m = some a)
    (v : SlabInv s outs (update movings c m)) :
    SlabInv s outs (update movings c (some a)) := by
  intro c' hc'
  have v' := v c' hc'
  by_cases h : c' = c
  · subst h
    rw [update_self] at v' ⊢
    refine { v' with homed := fun {k b} hb hmb => v'.homed hb ?_ }
    rcases hm with rfl | rfl
    · exact fun e => nomatch e
    · exact hmb
  · rwa [update_of_ne h] at v' ⊢

/-- The objects that are out may be listed in any order. -/
theorem SlabInv.perm (v : SlabInv s outs movings) {outs' : ℕ → List ℕ}
    (h : ∀ c, (outs c).Perm (outs' c)) : SlabInv s outs' movings := fun c hc => (v c hc).perm (h c)

end Bongos.Mm
