import Bongos.Mm.KvaTable
import Bongos.Run

/-!
# The kernel virtual area is partitioned

The free extents and the reservations of the callers, guard pages included, tile the area
(`KvaInv.tiling`), and no two free extents touch (`KvaInv.separated`). An allocation splits a free
extent or takes it whole. A free turns a reservation into a free extent and joins it with those that
touch it.

The table cannot overflow: there is a reservation between any two free extents
(`Tiling.length_le`), and `kvaAlloc` limits the reservations.
-/

namespace Bongos.Mm

open FallibleState List

/-- A reservation: what `kvaAlloc` returned, and what it was asked for. -/
structure KvaRange where
  va : ℕ
  size : ℕ
  deriving DecidableEq

/-- The part of the area that a reservation takes, with its guard pages. -/
def KvaRange.piece (r : KvaRange) : Piece := (r.va - KVA_GUARD_SIZE, r.va + r.size + KVA_GUARD_SIZE)

/-- A reservation as `kvaAlloc` makes them: a number of pages, and a guard page before it. -/
def KvaRange.Valid (r : KvaRange) : Prop :=
  r.size ≠ 0 ∧ r.size % KVA_PAGE_SIZE = 0 ∧ KVA_GUARD_SIZE ≤ r.va

/-- The state and the reservations that callers hold. -/
structure KvaWorld where
  st : KvaState
  live : List KvaRange

/-- The free extents and the reservations, with free extents given. -/
structure KvaLayout (base «end» : ℕ) (free : List KvaExtent) (live : List KvaRange) : Prop where
  tiling : Tiling base «end» (free.map KvaExtent.piece ++ live.map KvaRange.piece)
  separated : Separated (free.map KvaExtent.piece)
  valid : ∀ r ∈ live, r.Valid

/-- What holds after every call. -/
structure KvaInv (w : KvaWorld) : Prop where
  layout : KvaLayout w.st.base w.st.end w.st.free w.live
  end_lt : w.st.end < 2^64
  liveCount_eq : w.st.liveCount = w.live.length
  liveCount_lt : w.st.liveCount < KVA_MAX_EXTENTS

variable {base «end» start idx : ℕ} {free left right : List KvaExtent} {live : List KvaRange}
  {e f : KvaExtent} {r : KvaRange}

/-- No more free extents than reservations, and one. -/
theorem KvaLayout.length_le (h : KvaLayout base «end» free live) :
    free.length ≤ live.length + 1 := by
  simpa using h.tiling.length_le h.separated

/-- The tiles with one extent and one reservation first. -/
theorem pieces_perm : ((left ++ e :: right).map KvaExtent.piece ++ live.map KvaRange.piece).Perm
    (e.piece :: ((left ++ right).map KvaExtent.piece ++ live.map KvaRange.piece)) := by
  simp only [map_append, map_cons, append_assoc, cons_append]
  exact perm_middle

theorem reserved_perm : (free.map KvaExtent.piece ++ (r :: live).map KvaRange.piece).Perm
    (r.piece :: (free.map KvaExtent.piece ++ live.map KvaRange.piece)) :=
  perm_middle

theorem valid_cons (hr : r.Valid) (h : ∀ r ∈ live, r.Valid) : ∀ r' ∈ r :: live, r'.Valid :=
  forall_mem_cons.2 ⟨hr, h⟩

variable {s t : ℕ}

/-! ## Allocation -/

section

variable (h : KvaLayout base «end» (left ++ e :: right) live) (hr : r.Valid)

include h hr

/-- A reservation at the start of a free extent leaves the rest of it. -/
theorem KvaLayout.shrink (hp : r.piece = (e.start, t)) (h1 : e.start < t) (h2 : t < e.end) :
    KvaLayout base «end» (left ++ { e with start := t } :: right) (r :: live) := by
  refine ⟨?_, ?_, valid_cons hr h.valid⟩
  · have htile := (h.tiling.perm pieces_perm).split h1 h2
    rw [← hp] at htile
    exact htile.perm (reserved_perm.trans
      ((pieces_perm (e := { e with start := t })).cons r.piece)).symm
  · obtain ⟨hsep, hl, hq⟩ := separated_middle.1 h.separated
    exact separated_middle.2 ⟨hsep, fun l hl' => (hl l hl').trans h1, hq⟩

/-- A reservation can take a free extent whole. -/
theorem KvaLayout.take
    (hp : r.piece = e.piece) : KvaLayout base «end» (left ++ right) (r :: live) := by
  refine ⟨?_, (separated_middle.1 h.separated).1, valid_cons hr h.valid⟩
  have htile := h.tiling.perm pieces_perm
  rw [← hp] at htile
  exact htile.perm reserved_perm.symm

end

/-! ## Calls -/

variable {w : KvaWorld}

/-- An allocation reserves its pages and the guard pages around them. -/
theorem kvaAlloc_spec (i : KvaInv w) {size va : ℕ} (hsize : size < 2^64) {st' : KvaState}
    (h : kvaAlloc w.st size = .ok (va, st')) : KvaInv ⟨st', ⟨va, size⟩ :: w.live⟩ ∧
      st'.base = w.st.base ∧ st'.end = w.st.end := by
  obtain ⟨hne, hpage, hfits, hcount, hlive, hbase, hend, left, e, right, hfree, hroom, rfl,
    hfree'⟩ := kvaAlloc_ok h rfl
  have hguard : KVA_GUARD_SIZE = 4096 := rfl
  set need := (size + 2 * KVA_GUARD_SIZE) % 2^64 with hneed
  have hlayout := i.layout
  rw [hfree] at hlayout
  have hr : KvaRange.Valid ⟨e.start + KVA_GUARD_SIZE, size⟩ := ⟨hne, hpage, by simp⟩
  have hp : KvaRange.piece ⟨e.start + KVA_GUARD_SIZE, size⟩ = (e.start, e.start + need) := by
    simp only [KvaRange.piece, Prod.mk.injEq]
    omega
  refine ⟨⟨?_, hend ▸ i.end_lt, by simp [hlive, i.liveCount_eq], hlive ▸ hcount⟩, hbase, hend⟩
  rw [hbase, hend]
  rcases hfree' with ⟨hwhole, hfree'⟩ | ⟨hwhole, hfree'⟩ <;> rw [hfree']
  · exact hlayout.take hr (by rw [hp, hwhole]; rfl)
  · exact hlayout.shrink hr hp (by omega) (by omega)

/-- A reservation that is put back between its neighbours. -/
theorem KvaLayout.join (h : KvaLayout base «end» (left ++ right) (r :: live))
    (hp : r.piece = (s, t)) (hl : ∀ l ∈ left, l.end ≤ s) (hq : ∀ q ∈ right, t ≤ q.start)
    (hjoin : ExtentJoin s t left right free) : KvaLayout base «end» free live := by
  have hne : ∀ e ∈ left ++ right, e.start < e.end := fun e he =>
    h.tiling.nonempty e.piece (mem_append_left _ (mem_map_of_mem he))
  refine ⟨?_, hjoin.separated h.separated hne hl hq, (forall_mem_cons.1 h.valid).2⟩
  have htile := h.tiling.perm reserved_perm
  rw [hp] at htile
  cases hjoin with
  | @both _ _ e f he hf =>
    rw [append_assoc, ← he, ← hf] at htile
    have hfirst := htile.perm (((pieces_perm.trans (pieces_perm.cons _)).cons _).trans (.swap ..))
    exact hfirst.join.join.perm (pieces_perm (e := { e with «end» := f.end })).symm
  | @left _ _ e he =>
    rw [append_assoc, ← he] at htile
    have hfirst := htile.perm ((pieces_perm.cons _).trans (.swap ..))
    exact hfirst.join.perm (pieces_perm (e := { e with «end» := t })).symm
  | @right _ _ f _ hf =>
    rw [← hf] at htile
    exact (htile.perm (pieces_perm.cons _)).join.perm
      (pieces_perm (e := { f with start := s })).symm
  | between => exact htile.perm (pieces_perm (e := ⟨s, t⟩)).symm

theorem KvaInv.table (i : KvaInv w) : KvaTable w.st where
  separated := i.layout.separated
  nonempty e he := i.layout.tiling.nonempty e.piece (mem_append_left _ (mem_map_of_mem he))
  inside _ he := i.layout.tiling.inside (mem_append_left _ (mem_map_of_mem he))
  end_lt := i.end_lt

/-- A reservation finds a place. A range that touches nothing would become an extent of its own, of
which there are few. -/
theorem KvaInv.hasRoom (i : KvaInv w) (h : KvaLayout base «end» w.st.free (r :: live))
    (hlive : live.length < KVA_MAX_EXTENTS) (hp : r.piece = (s, t)) (hst : s < t)
    (hapart : ∀ e ∈ w.st.free, e.end ≤ s ∨ t ≤ e.start) : HasRoom w.st s t := by
  by_contra hno
  obtain ⟨hfull, htouch⟩ := not_or.1 hno
  obtain ⟨hl, hq⟩ := kvaSeek_split i.table.separated i.table.nonempty hapart hst
  rw [← take_append_drop (kvaSeek w.st.extents s w.st.count 0) w.st.free] at h
  have hlen := (h.join hp hl hq (.between
    (fun e he heq => htouch ⟨e, mem_of_mem_take (mem_of_getLast? he), .inl heq⟩)
    fun e he heq => htouch ⟨e, mem_of_mem_drop (mem_of_mem_head? he), .inr heq⟩)).length_le
  rw [length_append, length_cons, length_take, length_drop, KvaState.length_free] at hlen
  omega

/-- A free of a reservation succeeds, and its pages become free. -/
theorem kvaFree_spec (i : KvaInv w) (hr : r ∈ w.live) :
    ∃ st', exec (kvaFree r.va r.size) w.st = (.ok ⟨⟩, st') ∧ KvaInv ⟨st', w.live.erase r⟩ ∧
      st'.base = w.st.base ∧ st'.end = w.st.end := by
  obtain ⟨hsize, hpage, hva⟩ := i.layout.valid r hr
  have hperm : w.live.Perm (r :: w.live.erase r) := perm_cons_erase hr
  have hlen : w.live.length = (w.live.erase r).length + 1 := hperm.length_eq
  have hlayout : KvaLayout w.st.base w.st.end w.st.free (r :: w.live.erase r) :=
    ⟨i.layout.tiling.perm ((hperm.map _).append_left _), i.layout.separated, fun r' hr' =>
      i.layout.valid r' (hperm.mem_iff.2 hr')⟩
  have hp : r.piece = (r.va - 4096, r.va + r.size + 4096) := rfl
  have hin := hlayout.tiling.inside (p := r.piece) (by simp)
  have hlt := i.end_lt
  have hcount := i.liveCount_eq
  have hcount_lt := i.liveCount_lt
  simp only [hp] at hin
  have hguard : 4096 ≤ r.va := hva
  have hmod : (r.va + r.size + 4096) % 2^64 = r.va + r.size + 4096 := Nat.mod_eq_of_lt (by omega)
  have hapart : ∀ e ∈ w.st.free, e.end ≤ r.va - 4096 ∨ r.va + r.size + 4096 ≤ e.start := fun e he =>
    (pairwise_append.1 hlayout.tiling.apart).2.2 _ (mem_map_of_mem he) r.piece (by simp)
  have hroom := i.hasRoom hlayout (by omega) hp (by omega) hapart
  obtain ⟨st', hok⟩ := i.table.exists_kvaFree (Nat.pos_of_ne_zero hsize) hpage hguard (by omega)
    (by omega) (by rwa [hmod]) (by rwa [hmod])
  obtain ⟨-, -, -, -, hfreed⟩ := i.table.of_kvaFree hok
  rw [hmod] at hfreed
  obtain ⟨left, right, hfree, hl, hq, hjoin⟩ := hfreed.join
  rw [hfree] at hlayout
  have hlive := hfreed.liveCount_eq
  rw [if_neg (by omega)] at hlive
  refine ⟨st', hok, ⟨?_, hfreed.end_eq ▸ hlt, by simp only; omega, by simp only; omega⟩,
    hfreed.base_eq, hfreed.end_eq⟩
  rw [hfreed.base_eq, hfreed.end_eq]
  exact hlayout.join hp hl hq hjoin

/-! ## Runs -/

/-- A call that succeeds; one that fails changes nothing. Callers free only what they hold. -/
inductive KvaStep : KvaWorld → KvaWorld → Prop
  | alloc {w : KvaWorld} {size : BitVec 64} {va : ℕ} {st' : KvaState}
      (h : kvaAlloc w.st size.toNat = .ok (va, st')) : KvaStep w ⟨st', ⟨va, size.toNat⟩ :: w.live⟩
  | free {w : KvaWorld} {r : KvaRange} {st' : KvaState} (hr : r ∈ w.live)
      (h : exec (kvaFree r.va r.size) w.st = (.ok ⟨⟩, st')) : KvaStep w ⟨st', w.live.erase r⟩

/-- The area after `kvaStateInit`. The table held anything before. -/
def KvaWorld.init (st : KvaState) (base «end» : ℕ) : KvaWorld := ⟨kvaStateInit st base «end», []⟩

theorem KvaInv.init (st : KvaState) (hlt : base < «end») (h64 : «end» < 2^64) :
    KvaInv (.init st base «end») := by
  refine ⟨⟨?_, ?_, by simp [KvaWorld.init]⟩, h64, rfl, (by decide : 0 < KVA_MAX_EXTENTS)⟩
  · simpa [KvaWorld.init, kvaStateInit, KvaState.free, KvaExtent.piece] using Tiling.single hlt
  · simp [KvaWorld.init, kvaStateInit, KvaState.free, Separated]

/-- Every call keeps the invariant and the bounds of the area. -/
theorem KvaInv.step {w' : KvaWorld} (i : KvaInv w) (h : KvaStep w w') :
    KvaInv w' ∧ w'.st.base = w.st.base ∧ w'.st.end = w.st.end := by
  cases h with
  | alloc h => exact kvaAlloc_spec i (BitVec.isLt _) h
  | free hr h =>
    obtain ⟨st', h', hrest⟩ := kvaFree_spec i hr
    rw [h] at h'
    cases h'
    exact hrest

/-- The area `[base, end)` is partitioned. -/
structure KvaPartition (base «end» : ℕ) (w : KvaWorld) : Prop where
  /-- The table is sorted, and no two free extents overlap or touch. -/
  sorted : w.st.free.Pairwise fun e f => e.end < f.start
  nonempty : ∀ e ∈ w.st.free, e.start < e.end
  inside : ∀ e ∈ w.st.free, base ≤ e.start ∧ e.end ≤ «end»
  /-- The free extents and the reservations with their guard pages tile the area. -/
  tiling : Tiling base «end» (w.st.free.map KvaExtent.piece ++ w.live.map KvaRange.piece)
  liveCount_eq : w.st.liveCount = w.live.length
  count_le : w.st.count ≤ w.st.liveCount + 1
  liveCount_le : w.st.liveCount + 1 ≤ KVA_MAX_EXTENTS
  /-- Every reservation can be freed. -/
  free_ok : ∀ r ∈ w.live, ∃ st', exec (kvaFree r.va r.size) w.st = (.ok ⟨⟩, st')

theorem KvaInv.partition (i : KvaInv w) : KvaPartition w.st.base w.st.end w where
  sorted := pairwise_map.1 i.layout.separated
  nonempty := i.table.nonempty
  inside := i.table.inside
  tiling := i.layout.tiling
  liveCount_eq := i.liveCount_eq
  count_le := by
    have := i.layout.length_le
    rwa [KvaState.length_free, ← i.liveCount_eq] at this
  liveCount_le := i.liveCount_lt
  free_ok r hr := by
    obtain ⟨st', h, -⟩ := kvaFree_spec i hr
    exact ⟨st', h⟩

/-- **The kernel virtual area is partitioned, and the table of free extents never overflows.** After
every sequence of allocations and of frees of what they returned. -/
theorem kva_partition (st : KvaState) {w : KvaWorld} (hlt : base < «end») (h64 : «end» < 2^64)
    (hrun : Run KvaStep (.init st base «end») w) : KvaPartition base «end» w := by
  have i : KvaInv w ∧ w.st.base = base ∧ w.st.end = «end» := by
    refine hrun.invariant (P := fun w => KvaInv w ∧ w.st.base = base ∧ w.st.end = «end»)
      ⟨.init st hlt h64, rfl, rfl⟩ fun i h => ?_
    obtain ⟨i', hb, he⟩ := i.1.step h
    exact ⟨i', hb.trans i.2.1, he.trans i.2.2⟩
  have hpart := i.1.partition
  rwa [i.2.1, i.2.2] at hpart

/-- Two pages are reserved in an area of sixteen, and the first is freed. It touches the second, so
there are two free extents. -/
theorem kva_partition_twoPages : ∃ w, Run KvaStep
    (.init ⟨0, 0, fun _ => ⟨0, 0⟩, 0, 0⟩ 0x10000 0x20000) w ∧ w.live = [⟨0x14000, 0x1000⟩] ∧
      w.st.count = 2 ∧ KvaPartition 0x10000 0x20000 w := by
  let ext₀ := Function.update (fun _ => ⟨0, 0⟩ : ℕ → KvaExtent) 0 ⟨0x10000, 0x20000⟩
  let ext₁ := Function.update ext₀ 0 ⟨0x13000, 0x20000⟩
  let ext₂ := Function.update ext₁ 0 ⟨0x16000, 0x20000⟩
  let ext₃ := Function.update (shiftUp 1 1 ext₂) 0 ⟨0x10000, 0x13000⟩
  have h₁ : kvaAlloc ⟨0x10000, 0x20000, ext₀, 1, 0⟩ (0x1000 : BitVec 64).toNat =
    .ok (0x11000, ⟨0x10000, 0x20000, ext₁, 1, 1⟩) := by
    simp [kvaAlloc, KVA_PAGE_SIZE, KVA_GUARD_SIZE, KVA_MAX_EXTENTS, ext₁, ext₀, range_succ]
  have h₂ : kvaAlloc ⟨0x10000, 0x20000, ext₁, 1, 1⟩ (0x1000 : BitVec 64).toNat =
    .ok (0x14000, ⟨0x10000, 0x20000, ext₂, 1, 2⟩) := by
    simp [kvaAlloc, KVA_PAGE_SIZE, KVA_GUARD_SIZE, KVA_MAX_EXTENTS, ext₂, ext₁, range_succ]
  have h₃ : exec (kvaFree 0x11000 0x1000) ⟨0x10000, 0x20000, ext₂, 1, 2⟩ =
    (.ok ⟨⟩, ⟨0x10000, 0x20000, ext₃, 2, 1⟩) := by
    simp [kvaFree, kvaInsert, kvaSeek, KVA_PAGE_SIZE, KVA_GUARD_SIZE, KVA_MAX_EXTENTS, ext₃, ext₂]
  have hrun : Run KvaStep (.init ⟨0, 0, fun _ => ⟨0, 0⟩, 0, 0⟩ 0x10000 0x20000)
      ⟨⟨0x10000, 0x20000, ext₃, 2, 1⟩, [⟨0x14000, 0x1000⟩]⟩ :=
    ((Relation.ReflTransGen.single (.alloc h₁)).tail (.alloc h₂)).tail
      (.free (r := ⟨0x11000, 0x1000⟩) (by decide) h₃)
  exact ⟨_, hrun, rfl, rfl, kva_partition _ (by decide) (by decide) hrun⟩

end Bongos.Mm
