import Bongos.IndexChain
import Bongos.Mm.Slab

/-!
# One slab

What the rest of the development needs of a single slab. `slabComputeLayout` finds a layout for
every size and alignment that a cache can have, and the layout's objects lie inside the slab, past
the header and the index array (`slabComputeLayout_spec`). The free list of a slab is a chain
through its index array that passes exactly through the objects that are not out, and `slabCarve`,
`slabFreeListPop`, and `slabFreeListPush` keep it so.
-/

namespace Bongos.Mm

open List

/-! ## The layout -/

/-- The layout of a slab: the header, the index array, and the objects, in this order and without
overlap. -/
structure LayoutOk (layout : SlabLayout) : Prop where
  order_le : layout.order ≤ SLAB_MAX_ORDER
  objs_pos : 0 < layout.objsPerSlab
  objs_le : layout.objsPerSlab ≤ SLAB_MAX_OBJECTS
  stride_pos : 0 < layout.stride
  header_le : sizeofSlab + layout.objsPerSlab * 2 ≤ layout.objOffset
  fits : layout.objOffset + layout.objsPerSlab * layout.stride ≤ 4096 * 2^layout.order

/-- The layout is one for objects of `objSize` bytes: past the header and the index array, each
object has its redzones and its alignment. -/
structure LayoutFor (objSize align : ℕ) (layout : SlabLayout) : Prop extends LayoutOk layout where
  redzone_le : sizeofSlab + layout.objsPerSlab * 2 + layout.rzLeft ≤ layout.objOffset
  slot_le : layout.rzLeft + objSize ≤ layout.stride
  offset_dvd : align ∣ layout.objOffset
  stride_dvd : align ∣ layout.stride

variable {k rzLeft stride i objSize : ℕ} {layout : SlabLayout} {slab : Slab} {busy : ℕ → Prop}

/-- `alignUp32` rounds up to the next multiple of a power of two. -/
theorem alignUp32_spec {v : ℕ} (hk : k ≤ 32) (hv : v + 2^k ≤ 2^32) :
    v ≤ alignUp32 v (2^k) ∧ alignUp32 v (2^k) < v + 2^k ∧ 2^k ∣ alignUp32 v (2^k) := by
  have hpos := Nat.two_pow_pos k
  have hmask : 2^32 - 1 - (2^k - 1) = 2^32 - 2^k := by omega
  have hdiv := Nat.div_add_mod (v + (2^k - 1)) (2^k)
  rw [alignUp32, hmask, land_two_pow_sub hk (by omega), Nat.mul_comm]
  exact ⟨by omega, by omega, Nat.dvd_mul_right _ _⟩

/-- The inner loop ends at a number of objects that fits. -/
theorem slabFit_spec (rzLeft align stride slabBytes n : ℕ) :
    slabFit rzLeft align stride slabBytes n ≤ n ∧
      (0 < slabFit rzLeft align stride slabBytes n →
        slabMinObjOffset (slabFit rzLeft align stride slabBytes n) rzLeft align +
          slabFit rzLeft align stride slabBytes n * stride ≤ slabBytes) := by
  induction n with
  | zero => exact ⟨le_rfl, fun h => absurd h (lt_irrefl 0)⟩
  | succ n ih =>
    simp only [slabFit]
    split_ifs with h
    · exact ⟨le_rfl, fun _ => h⟩
    · exact ⟨ih.1.trans (Nat.le_succ n), ih.2⟩

/-- The inner loop finds an object where one fits. -/
theorem slabFit_pos {align slabBytes n : ℕ} (hn : 0 < n)
    (h : slabMinObjOffset 1 rzLeft align + stride ≤ slabBytes) :
    0 < slabFit rzLeft align stride slabBytes n := by
  induction n with
  | zero => exact absurd hn (lt_irrefl 0)
  | succ n ih =>
    simp only [slabFit]
    split_ifs with hfit
    · exact Nat.succ_pos n
    · cases n with
      | zero => exact absurd (by simpa using h) hfit
      | succ n => exact ih (Nat.succ_pos n)

/-- A layout that one round of the outer loop returns. -/
theorem slabLayoutAt_spec {order : ℕ} (hk : k ≤ 12)
    (hrz : rzLeft ≤ 2^12) (hpos : 0 < objSize) (hs : rzLeft + objSize ≤ stride)
    (hdvd : 2^k ∣ stride)
    (ho : order ≤ SLAB_MAX_ORDER) (h : slabLayoutAt rzLeft (2^k) stride order = some layout) :
    LayoutFor objSize (2^k) layout := by
  unfold slabLayoutAt at h
  simp only at h
  obtain ⟨hle, hfits⟩ := slabFit_spec rzLeft (2^k) stride (4096 <<< order)
    (min (4096 <<< order / stride) SLAB_MAX_OBJECTS)
  generalize slabFit rzLeft (2^k) stride (4096 <<< order)
    (min (4096 <<< order / stride) SLAB_MAX_OBJECTS) = n at *
  split_ifs at h with hn
  cases h
  have hobjs : n ≤ SLAB_MAX_OBJECTS := hle.trans (min_le_right _ _)
  have hpow : 2^k ≤ 2^12 := Nat.pow_le_pow_right (by decide) hk
  obtain ⟨hup, -, hoff⟩ := alignUp32_spec (v := sizeofSlab + n * 2 + rzLeft) (k := k) (by omega) (by
    simp only [sizeofSlab, SLAB_MAX_OBJECTS] at *; omega)
  refine ⟨⟨ho, hn.1, hobjs, by dsimp only; omega, (Nat.le_add_right _ _).trans hup, ?_⟩,
    hup, hs, hoff, hdvd⟩
  simpa [Nat.shiftLeft_eq] using hfits hn.1

/-- **A cache has a layout**: for every object size and alignment that `slabCacheCreate` accepts, in
both kinds of build, the loop finds one. -/
theorem slabComputeLayout_spec (debug : Bool) (hpos : 0 < objSize)
    (hsize : objSize ≤ KMALLOC_MAX_SIZE) (hk : k ≤ 12) :
    ∃ layout, slabComputeLayout objSize (2^k) debug = some layout ∧
      LayoutFor objSize (2^k) layout := by
  have hpow : 2^k ≤ 2^12 := Nat.pow_le_pow_right (by decide) hk
  simp only [KMALLOC_MAX_SIZE] at hsize
  unfold slabComputeLayout
  simp only
  -- The redzones are at most one alignment unit and 16 bytes.
  have hleft : (if debug then (if 2^k > SLAB_REDZONE_SIZE then 2^k else SLAB_REDZONE_SIZE)
      else 0) ≤ 2^12 := by
    split_ifs
    · exact hpow
    · decide
    · exact Nat.zero_le _
  have hright : (if debug then SLAB_REDZONE_SIZE else 0) ≤ 16 := by
    split_ifs <;> simp [SLAB_REDZONE_SIZE]
  generalize (if debug then (if 2^k > SLAB_REDZONE_SIZE then 2^k else SLAB_REDZONE_SIZE)
    else 0) = rzLeft at hleft ⊢
  generalize (if debug then SLAB_REDZONE_SIZE else 0) = rzRight at hright ⊢
  obtain ⟨hlo, hhi, hdvd⟩ :=
    alignUp32_spec (v := rzLeft + objSize + rzRight) (k := k) (by omega) (by omega)
  generalize alignUp32 (rzLeft + objSize + rzRight) (2^k) = stride at hlo hhi hdvd
  -- At the largest order one object always fits.
  have hlast : (slabLayoutAt rzLeft (2^k) stride SLAB_MAX_ORDER).isSome := by
    obtain ⟨-, hoff, -⟩ := alignUp32_spec (v := sizeofSlab + 1 * 2 + rzLeft) (k := k) (by omega) (by
      simp only [sizeofSlab]; omega)
    have hn : 0 < min (4096 <<< SLAB_MAX_ORDER / stride) SLAB_MAX_OBJECTS := by
      refine lt_min (Nat.div_pos ?_ (by omega)) (by decide)
      simp only [SLAB_MAX_ORDER]
      omega
    have hfit : 0 < slabFit rzLeft (2^k) stride (4096 <<< SLAB_MAX_ORDER)
        (min (4096 <<< SLAB_MAX_ORDER / stride) SLAB_MAX_OBJECTS) := by
      refine slabFit_pos hn ?_
      simp only [slabMinObjOffset, SLAB_MAX_ORDER, sizeofSlab] at *
      omega
    unfold slabLayoutAt
    rw [if_pos ⟨hfit, Or.inr rfl⟩]
    rfl
  obtain ⟨layout, hl⟩ := Option.isSome_iff_exists.1
    (findSome?_isSome_iff.2 ⟨SLAB_MAX_ORDER, mem_range.2 (Nat.lt_succ_self _), hlast⟩)
  obtain ⟨order, hmem, hat⟩ := exists_of_findSome?_eq_some hl
  exact ⟨layout, hl, slabLayoutAt_spec hk hleft hpos (by omega) hdvd
    (Nat.lt_succ_iff.1 (mem_range.1 hmem)) hat⟩

/-- The slot at an offset is the object that starts there. -/
theorem slabIndexForOffset_eq_some (h : LayoutOk layout) {off : ℕ} :
    slabIndexForOffset layout off = some i ↔ i < layout.objsPerSlab ∧ off = i * layout.stride := by
  have hne : layout.stride ≠ 0 := h.stride_pos.ne'
  unfold slabIndexForOffset
  constructor
  · intro hsome
    split_ifs at hsome with hmod hge
    cases hsome
    rw [not_or, not_not] at hmod
    exact ⟨not_le.1 hge, (Nat.div_mul_cancel (Nat.dvd_of_mod_eq_zero hmod.2)).symm⟩
  · rintro ⟨hi, rfl⟩
    rw [Nat.mul_mod_left, Nat.mul_div_cancel _ h.stride_pos, if_neg (by simp [hne]),
      if_neg (by omega)]

/-- The parts of a slot, each with its start and its length: the left redzone, the payload, and the
right redzone of `slabDebugRightLen`. -/
def slotParts (layout : SlabLayout) (objSize i : ℕ) : List (ℕ × ℕ) :=
  let slot := layout.objOffset + i * layout.stride
  [(slot - layout.rzLeft, layout.rzLeft), (slot, objSize),
    (slot + objSize, layout.stride - layout.rzLeft - objSize)]

/-- The parts of a slab: the header, the index array, and the parts of each slot. -/
def slabParts (layout : SlabLayout) (objSize : ℕ) : List (ℕ × ℕ) :=
  (0, sizeofSlab) :: (sizeofSlab, layout.objsPerSlab * 2) ::
    (List.range layout.objsPerSlab).flatMap (slotParts layout objSize)

/-- The parts of a slot lie between its left redzone and the one of the next slot. -/
theorem LayoutFor.slotParts_bounds {align : ℕ} (h : LayoutFor objSize align layout) {p : ℕ × ℕ}
    (hp : p ∈ slotParts layout objSize i) :
    layout.objOffset + i * layout.stride ≤ p.1 + layout.rzLeft ∧
      p.1 + p.2 + layout.rzLeft ≤ layout.objOffset + (i + 1) * layout.stride := by
  have hheader := h.redzone_le
  have hslot := h.slot_le
  rw [Nat.succ_mul]
  simp only [slotParts, mem_cons, not_mem_nil, or_false] at hp
  rcases hp with rfl | rfl | rfl <;> dsimp only <;> omega

/-- **The parts of a slab do not overlap.** For every size and alignment of objects, in both kinds
of build, there is a layout whose parts lie in the slab one after another, with aligned payloads,
and the offsets of the payloads are the ones that have an index. -/
theorem slabComputeLayout_parts (objSize k : ℕ) (debug : Bool) (hpos : 1 ≤ objSize)
    (hsize : objSize ≤ 8192) (hk : 3 ≤ k ∧ k ≤ 12) :
    ∃ layout, slabComputeLayout objSize (2^k) debug = some layout ∧
      (slabParts layout objSize).Pairwise (fun p q => p.1 + p.2 ≤ q.1) ∧
      (∀ p ∈ slabParts layout objSize, p.1 + p.2 ≤ 4096 <<< layout.order) ∧
      (∀ slab i, 4096 ∣ slab → 2^k ∣ slab + layout.objOffset + i * layout.stride) ∧
      1 ≤ layout.objsPerSlab ∧ layout.objsPerSlab ≤ 1024 ∧
      ∀ off i, slabIndexForOffset layout off = some i ↔
        i < layout.objsPerSlab ∧ off = i * layout.stride := by
  obtain ⟨layout, hl, h⟩ := slabComputeLayout_spec debug hpos hsize hk.2
  have hheader := h.redzone_le
  have hfits := h.fits
  have hslots : ∀ p ∈ (List.range layout.objsPerSlab).flatMap (slotParts layout objSize),
      sizeofSlab + layout.objsPerSlab * 2 ≤ p.1 ∧ p.1 + p.2 ≤ 4096 * 2^layout.order := by
    intro p hp
    obtain ⟨i, hi, hp⟩ := mem_flatMap.1 hp
    have hlast : (i + 1) * layout.stride ≤ layout.objsPerSlab * layout.stride :=
      Nat.mul_le_mul_right _ (mem_range.1 hi)
    have := h.slotParts_bounds hp
    omega
  refine ⟨layout, hl, ?_, ?_, fun slab i hslab => ?_, h.objs_pos, h.objs_le,
    fun _ _ => slabIndexForOffset_eq_some h.toLayoutOk⟩
  · refine pairwise_cons.2 ⟨forall_mem_cons.2 ⟨by simp, fun q hq => ?_⟩,
      pairwise_cons.2 ⟨fun q hq => (hslots q hq).1, pairwise_flatMap.2 ⟨fun i _ => ?_, ?_⟩⟩⟩
    · have := (hslots q hq).1
      omega
    · simp [slotParts]
      omega
    · refine pairwise_lt_range.imp fun {i j} hij p hp q hq => ?_
      have hnext : (i + 1) * layout.stride ≤ j * layout.stride := Nat.mul_le_mul_right _ hij
      have := h.slotParts_bounds hp
      have := h.slotParts_bounds hq
      omega
  · rw [Nat.shiftLeft_eq]
    refine forall_mem_cons.2 ⟨?_, forall_mem_cons.2 ⟨?_, fun p hp => (hslots p hp).2⟩⟩ <;>
      dsimp only <;> omega
  · have hpage : 2^k ∣ 4096 := pow_dvd_pow 2 hk.2
    exact ((hpage.trans hslab).add h.offset_dvd).add (h.stride_dvd.mul_left i)

/-- Objects of 64 bytes in a build with redzones. -/
theorem slabComputeLayout_parts_64 : ∃ layout, slabComputeLayout 64 (2^4) true = some layout ∧
    (slabParts layout 64).Pairwise fun p q => p.1 + p.2 ≤ q.1 := by
  obtain ⟨layout, hl, hparts, -⟩ :=
    slabComputeLayout_parts 64 4 true (by decide) (by decide) (by decide)
  exact ⟨layout, hl, hparts⟩

/-! ## The free list -/

/-- The free list of a slab passes exactly once through the objects that are not `busy`, and the
index array marks the busy ones. -/
structure FreeListOk (slab : Slab) (busy : ℕ → Prop) : Prop where
  chain : ∃ l, Chain slab.bufctl SLAB_BUFCTL_END slab.freeHead l ∧ l.Nodup ∧
    l.length = slab.freeCount ∧ ∀ i, i ∈ l ↔ i < slab.objCount ∧ ¬ busy i
  marked : ∀ i, i < slab.objCount → busy i → slab.bufctl i = SLAB_BUFCTL_BUSY

theorem FreeListOk.congr_busy {busy' : ℕ → Prop} (f : FreeListOk slab busy)
    (h : ∀ i, i < slab.objCount → (busy' i ↔ busy i)) : FreeListOk slab busy' := by
  obtain ⟨l, hc, hnd, hlen, hmem⟩ := f.chain
  refine ⟨⟨l, hc, hnd, hlen, fun i => ?_⟩, fun i hi hb => f.marked i hi ((h i hi).1 hb)⟩
  rw [hmem]
  exact and_congr_right fun hi => not_congr (h i hi).symm

/-- A new slab has every object on its free list. -/
theorem slabCarve_freeListOk (slab : Slab) (hn : slab.objCount ≤ SLAB_MAX_OBJECTS) :
    FreeListOk (slabCarve slab) fun _ => False := by
  simp only [SLAB_MAX_OBJECTS] at hn
  -- The links from object `k` pass through the objects from `k` on.
  have hchain : ∀ m k, k + m = slab.objCount → Chain (slabCarve slab).bufctl SLAB_BUFCTL_END
      (if m = 0 then SLAB_BUFCTL_END else k) (List.range' k m) := by
    intro m
    induction m with
    | zero => intro k _; exact .nil
    | succ m ih =>
      intro k hk
      have hlink : (slabCarve slab).bufctl k = if m = 0 then SLAB_BUFCTL_END else k + 1 := by
        simp only [slabCarve]
        split_ifs <;> first | rfl | omega
      rw [if_neg (Nat.succ_ne_zero m), List.range'_succ]
      refine .cons (by simp only [SLAB_BUFCTL_END]; omega) ?_
      rw [hlink]
      exact ih (k + 1) (by omega)
  refine ⟨⟨List.range' 0 slab.objCount, ?_, nodup_range', by simp [slabCarve], fun i => ?_⟩,
    fun _ _ h => h.elim⟩
  · have := hchain slab.objCount 0 (Nat.zero_add _)
    simp only [slabCarve] at this ⊢
    split_ifs at this ⊢ <;> first | exact this | omega
  · simp [slabCarve, mem_range'_1]

/-- Taking the first free object makes it busy. -/
theorem slabFreeListPop_spec (f : FreeListOk slab busy) (h : 0 < slab.freeCount) :
    (slabFreeListPop slab).1 < slab.objCount ∧ ¬ busy (slabFreeListPop slab).1 ∧
      FreeListOk (slabFreeListPop slab).2 fun i => i = (slabFreeListPop slab).1 ∨ busy i := by
  obtain ⟨l, hc, hnd, hlen, hmem⟩ := f.chain
  obtain ⟨i, l, rfl⟩ : ∃ i t, l = i :: t := exists_cons_of_length_pos (hlen ▸ h)
  obtain ⟨hi, hnd'⟩ := nodup_cons.1 hnd
  obtain ⟨rfl, hc'⟩ := hc.pop hi SLAB_BUFCTL_BUSY
  obtain ⟨hlt, hfree⟩ := (hmem slab.freeHead).1 mem_cons_self
  refine ⟨hlt, hfree, ⟨l, hc', hnd', ?_, fun j => ?_⟩, fun j hj hb => ?_⟩
  · simp only [slabFreeListPop, ← hlen, length_cons, Nat.add_sub_cancel]
  · have := hmem j
    simp only [mem_cons] at this
    simp only [slabFreeListPop, not_or]
    constructor
    · intro hj
      exact ⟨(this.1 (Or.inr hj)).1, fun e => hi (e ▸ hj), (this.1 (Or.inr hj)).2⟩
    · rintro ⟨hj, hne, hb⟩
      exact (this.2 ⟨hj, hb⟩).resolve_left hne
  · simp only [slabFreeListPop] at hb ⊢
    by_cases he : j = slab.freeHead
    · rw [he, Function.update_self]
    · rw [Function.update_of_ne he]
      exact f.marked j hj (hb.resolve_left he)

/-- Putting a busy object back makes it free. -/
theorem slabFreeListPush_spec (f : FreeListOk slab busy)
    (hi : i < slab.objCount) (hb : busy i) (hn : slab.objCount ≤ SLAB_MAX_OBJECTS) :
    FreeListOk (slabFreeListPush slab i) fun j => j ≠ i ∧ busy j := by
  obtain ⟨l, hc, hnd, hlen, hmem⟩ := f.chain
  have hil : i ∉ l := fun h => ((hmem i).1 h).2 hb
  have hstop : i ≠ SLAB_BUFCTL_END := by
    simp only [SLAB_MAX_OBJECTS, SLAB_BUFCTL_END] at *
    omega
  refine ⟨⟨i :: l, hc.push hstop hil, nodup_cons.2 ⟨hil, hnd⟩, ?_, fun j => ?_⟩, fun j hj hbj => ?_⟩
  · simp only [length_cons, hlen, slabFreeListPush]
  · simp only [mem_cons, hmem, slabFreeListPush]
    by_cases he : j = i
    · subst he; simp [hi]
    · simp [he]
  · simp only [slabFreeListPush]
    rw [Function.update_of_ne hbj.1]
    exact f.marked j hj hbj.2

/-- The number of free objects says how many are not busy. -/
theorem FreeListOk.freeCount_eq [DecidablePred busy] (f : FreeListOk slab busy) :
    slab.freeCount + ((List.range slab.objCount).filter fun i => busy i).length =
      slab.objCount := by
  obtain ⟨l, -, hnd, hlen, hmem⟩ := f.chain
  have hperm : ((List.range slab.objCount).filter fun i => !busy i).Perm l := by
    refine (perm_ext_iff_of_nodup (nodup_range.filter _) hnd).2 fun i => ?_
    simp [hmem]
  have hsplit := length_eq_length_filter_add (l := List.range slab.objCount) (fun i => busy i)
  rw [length_range, hperm.length_eq] at hsplit
  omega

end Bongos.Mm
