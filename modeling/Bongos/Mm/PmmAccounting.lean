import Bongos.Mm.PmmBoot

/-!
# The memory accounting of the boot

Every usable page is withheld, consumed by the bump allocator, out of reach, or handed to the buddy
core, exactly once, and the reclaims add what they record: the boot never panics on a map that
`bootMemMapCheck` accepts, and the self-check holds ever after.
-/

namespace Bongos.Mm

open Bongos.Core
open List

variable {s s' : Pmm}

/-! ## Adding memory -/

/-- The frames that have entered the buddy core, each once: they are the frames of `PmmInv`. -/
structure Entered (s : Pmm) (live : List (ℕ × ℕ)) (entered : List ℕ) : Prop where
  inv : PmmInv ⟨s, live, {f | f ∈ entered}⟩ none
  nodup : entered.Nodup

/-- The pages of a range, given in bytes. -/
theorem shiftLeft_lor_land (a b : ℕ) : (a <<< 12 ||| b <<< 12) &&& 0xFFF = 0 := by
  rw [← Nat.shiftLeft_or_distrib, show (0xFFF : ℕ) = 2^12 - 1 from rfl,
    Nat.and_two_pow_sub_one_eq_mod, Nat.shiftLeft_eq, Nat.mul_mod_left]

variable {live : List (ℕ × ℕ)} {entered : List ℕ}

/-- Frames that have not entered are `RESERVED`. -/
theorem Entered.reserved (h : Entered s live entered) {f : ℕ}
    (hf : f ∉ entered) : (s.pages f).state = .reserved :=
  not_not.1 fun hs => hf (h.inv.added_iff.2 hs)

/-- The zones have counted them. -/
theorem Entered.managed_eq (h : Entered s live entered) :
    (s.zones .dma32).managedPages + (s.zones .normal).managedPages = entered.length := by
  have hcard : {f | f ∈ entered}.encard = entered.length := by
    rw [← coe_toFinset, Set.encard_coe_eq_coe_finsetCard, toFinset_card_of_nodup h.nodup]
  have hzones : zoneFrames .dma32 ∪ zoneFrames .normal = Set.univ := by
    ext f
    cases hf : pmmZoneOfPfn f <;> simp [zoneFrames, hf]
  have hdisj : Disjoint ({f | f ∈ entered} ∩ zoneFrames .dma32)
      ({f | f ∈ entered} ∩ zoneFrames .normal) :=
    Set.disjoint_left.2 fun f hf hf' => PmmZoneId.noConfusion (hf.2.symm.trans hf'.2)
  rw [← Set.inter_univ {f | f ∈ entered}, ← hzones, Set.inter_union_distrib_left,
    Set.encard_union_eq hdisj, ← h.inv.counted, ← h.inv.counted] at hcard
  exact_mod_cast hcard

/-- `pmmAddFreeRange` takes a range of valid frames that have not entered. -/
theorem Entered.add {a b : ℕ} (h : Entered s live entered)
    (hlt : a < b) (hvalid : ∀ f ∈ Ico a b, pmmPfnValid s.spans f)
    (hnew : ∀ f ∈ Ico a b, f ∉ entered) :
    ∃ s', pmmAddFreeRange s (a <<< 12) ((b - a) <<< 12) = (.ok, s') ∧ s'.spans = s.spans ∧
      Entered s' live (entered ++ Ico a b) := by
  simp only [Ico.mem] at hvalid hnew
  have hend : a + (b - a) = b := by omega
  obtain ⟨hadd, hspans⟩ := pmmAddFrom_inv h.inv fun f h1 h2 => hnew f ⟨h1, h2⟩
  refine ⟨pmmAddFrom s a b, ?_, hspans, ?_, ?_⟩
  · have hany : ¬ ((List.range' a (b - a)).any fun p =>
        !pmmPfnValid s.spans p || (s.pages p).state != .reserved) = true := by
      rw [any_eq_true]
      rintro ⟨f, hf, hbad⟩
      have hf : a ≤ f ∧ f < b := by
        have := mem_range'_1.1 hf
        omega
      simp [hvalid f hf, h.reserved (hnew f hf)] at hbad
    unfold pmmAddFreeRange
    simp only [shiftLeft_lor_land, Nat.shiftLeft_shiftRight, hend]
    rw [if_neg (by simp), if_neg (by rw [Nat.shiftLeft_eq]; omega), if_neg (by omega), if_neg hany]
  · convert hadd using 2
    ext f
    simp
  · exact nodup_append.2 ⟨h.nodup, Ico.nodup a b, fun f hf g hg hfg =>
      hnew g (Ico.mem.1 hg) (hfg ▸ hf)⟩

/-- Where no frame is listed twice, the frames of the next range have not entered. -/
theorem not_mem_of_next {α : Type} {frames : α → List ℕ} {seen rest : List α} {x : α} {f : ℕ}
    (h : (entered ++ (seen ++ x :: rest).flatMap frames).Nodup) (hf : f ∈ frames x) :
    f ∉ entered ++ seen.flatMap frames := by
  intro hin
  rw [flatMap_append, flatMap_cons, ← append_assoc, ← append_assoc] at h
  exact (nodup_append.1 (nodup_append.1 h).1).2.2 f hin f hf rfl

/-- The usable ranges of a map enter, one after the other. -/
theorem Entered.addUsable (h : Entered s live entered)
    (us : List PmmUsableRange)
    (hvalid : ∀ f ∈ us.flatMap PmmUsableRange.frames, pmmPfnValid s.spans f)
    (hnodup : (entered ++ us.flatMap PmmUsableRange.frames).Nodup) :
    ∃ s', us.foldlM Mm.addUsable s = .ok s' ∧ s'.spans = s.spans ∧
      Entered s' live (entered ++ us.flatMap PmmUsableRange.frames) := by
  refine FallibleLoop.exists_foldlM_ok (P := fun seen t => t.spans = s.spans ∧
    Entered t live (entered ++ seen.flatMap PmmUsableRange.frames))
    ⟨rfl, by simpa using h⟩ fun {seen u rest t} hus ht => ?_
  subst hus
  unfold Mm.addUsable
  split_ifs with hlt
  · obtain ⟨t', hadd, hspans, ht'⟩ := ht.2.add hlt
      (fun f hf => ht.1 ▸ hvalid f (mem_flatMap.2 ⟨u, by simp, hf⟩)) fun f hf =>
        not_mem_of_next hnodup hf
    refine ⟨t', by rw [hadd], hspans.trans ht.1, ?_⟩
    rwa [flatMap_append, flatMap_singleton, ← append_assoc]
  · refine ⟨t, rfl, ht.1, ?_⟩
    have hempty : u.frames = [] := Ico.eq_nil_of_le (not_lt.1 hlt)
    simpa [hempty] using ht.2

/-- The bounds of a recorded range are whole pages. -/
def RangeAligned (r : PmmReclaimRange) : Prop :=
  4096 ∣ r.physBase.toNat ∧ 4096 ∣ (r.physBase + r.length).toNat

/-- The frames that a reclaim of a range frees. -/
def PmmReclaimRange.frames (r : PmmReclaimRange) : List ℕ :=
  match pmmReclaimClip r with
  | none => []
  | some (base, «end») => Ico (base >>> 12) («end» >>> 12)

/-- A clipped range is whole pages. -/
theorem pmmReclaimClip_pages {r : PmmReclaimRange} (hr : RangeAligned r) {base «end» : ℕ}
    (h : pmmReclaimClip r = some (base, «end»)) :
    ∃ a b, a < b ∧ base = a <<< 12 ∧ «end» = b <<< 12 := by
  obtain ⟨⟨p, hp⟩, q, hq⟩ := hr
  have hshift : ∀ n, n <<< 12 = n * 4096 := fun n => Nat.shiftLeft_eq n 12
  unfold pmmReclaimClip at h
  simp only [hshift, hp, hq] at h
  refine ⟨base / 4096, «end» / 4096, ?_⟩
  split_ifs at h <;> simp only [Option.some.injEq, Prod.mk.injEq] at h <;> omega

/-- A piece of valid frames that have not entered is reclaimed. -/
theorem Entered.reclaimPiece {a b : ℕ}
    (h : Entered s live entered) (hlt : a < b) (hvalid : ∀ f ∈ Ico a b, pmmPfnValid s.spans f)
    (hnew : ∀ f ∈ Ico a b, f ∉ entered) :
    ∃ s', pmmReclaimPiece s (a <<< 12) (b <<< 12 - a <<< 12) = .ok (b - a, s') ∧
      s'.spans = s.spans ∧ Entered s' live (entered ++ Ico a b) := by
  have hlen : b <<< 12 - a <<< 12 = (b - a) <<< 12 := by
    simp only [Nat.shiftLeft_eq, Nat.sub_mul]
  have hend : a + (b - a) - a = b - a := by omega
  obtain ⟨s', hadd, hspans, hs'⟩ := h.add hlt hvalid hnew
  refine ⟨s', ?_, hspans, hs'⟩
  have hall : pmmRangeAllReserved s (a <<< 12) ((b - a) <<< 12) = true := by
    unfold pmmRangeAllReserved
    simp only [Nat.shiftLeft_shiftRight, hend, all_eq_true, Bool.and_eq_true, beq_iff_eq]
    intro f hf
    exact ⟨hvalid f hf, h.reserved (hnew f hf)⟩
  unfold pmmReclaimPiece
  rw [hlen, if_neg (by rw [Nat.shiftLeft_eq]; omega), hall, hadd]
  simp

/-- The recorded ranges enter, one after the other. -/
theorem Entered.reclaimRanges {rs : List PmmReclaimRange}
    (h : Entered s live entered) (hal : ∀ r ∈ rs, RangeAligned r)
    (hvalid : ∀ f ∈ rs.flatMap PmmReclaimRange.frames, pmmPfnValid s.spans f)
    (hnodup : (entered ++ rs.flatMap PmmReclaimRange.frames).Nodup) :
    ∃ s', pmmReclaimRanges s rs = .ok ((rs.flatMap PmmReclaimRange.frames).length, s') ∧
      s'.spans = s.spans ∧ Entered s' live (entered ++ rs.flatMap PmmReclaimRange.frames) := by
  suffices ∃ t, rs.foldlM reclaimRound (0, s) = .ok t ∧
      t.1 = (rs.flatMap PmmReclaimRange.frames).length ∧ t.2.spans = s.spans ∧
      Entered t.2 live (entered ++ rs.flatMap PmmReclaimRange.frames) by
    obtain ⟨t, hfold, hn, hspans, ht⟩ := this
    exact ⟨t.2, by rw [pmmReclaimRanges, hfold, ← hn], hspans, ht⟩
  refine FallibleLoop.exists_foldlM_ok
    (P := fun seen (t : ℕ × Pmm) => t.1 = (seen.flatMap PmmReclaimRange.frames).length ∧
      t.2.spans = s.spans ∧ Entered t.2 live (entered ++ seen.flatMap PmmReclaimRange.frames))
    ⟨rfl, rfl, by simpa using h⟩ fun {seen r rest t} hrs ht => ?_
  subst hrs
  unfold reclaimRound
  split
  next hclip =>
    have hempty : r.frames = [] := by rw [PmmReclaimRange.frames, hclip]
    exact ⟨t, rfl, by simpa [hempty] using ht⟩
  next base «end» hclip =>
    obtain ⟨a, b, hlt, rfl, rfl⟩ := pmmReclaimClip_pages (hal r (by simp)) hclip
    have hframes : r.frames = Ico a b := by
      rw [PmmReclaimRange.frames, hclip]
      simp only [Nat.shiftLeft_shiftRight]
    obtain ⟨t', hpiece, hspans, ht'⟩ := ht.2.2.reclaimPiece hlt
      (fun f hf => ht.2.1 ▸ hvalid f (mem_flatMap.2 ⟨r, by simp, hframes ▸ hf⟩))
      fun f hf => not_mem_of_next hnodup (hframes ▸ hf)
    refine ⟨(t.1 + (b - a), t'), by rw [hpiece]; rfl, ?_, hspans.trans ht.2.1, ?_⟩
    · simp [ht.1, hframes, Ico.length]
    · rwa [flatMap_append, flatMap_singleton, hframes, ← append_assoc]

/-! ## The plan of the boot -/

/-- The frames that the recorded ranges of a map would add to the buddy core. -/
def reclaimFrames (ranges : List PmmReclaimRange) : List ℕ := ranges.flatMap PmmReclaimRange.frames

/-- The frames of the usable ranges of a map. -/
def usableFrames (m : PmmMap) : List ℕ := m.usable.flatMap PmmUsableRange.frames

/-- What a map, with the frames that the bump allocator has handed out, promises about the rest of
the boot. -/
structure BootPlan (m : PmmMap) (handed : List ℕ) : Prop where
  /-- What is handed out, what enters at once, and what the reclaims add, is disjoint. -/
  nodup : (usableFrames m ++ handed ++ reclaimFrames m.loaderReclaim ++
    reclaimFrames m.acpiReclaim).Nodup
  window : ∀ f ∈ usableFrames m ++ handed ++ reclaimFrames m.loaderReclaim ++
    reclaimFrames m.acpiReclaim, PMM_LOW_MEM_LIMIT_PFN ≤ f ∧ f < PMM_HHDM_LIMIT_PFN ∧
      pmmPfnValid m.spans f
  pages_eq : m.typePages BOOT_MEM_USABLE.toNat =
    m.lowReservedPages + (usableFrames m ++ handed).length + m.unmappedPages
  loader_aligned : ∀ r ∈ m.loaderReclaim, RangeAligned r
  acpi_aligned : ∀ r ∈ m.acpiReclaim, RangeAligned r
  loader_le : (reclaimFrames m.loaderReclaim).length ≤ m.typePages BOOT_MEM_LOADER_RECLAIM.toNat
  acpi_le : (reclaimFrames m.acpiReclaim).length ≤ m.typePages BOOT_MEM_ACPI_RECLAIM.toNat

/-- The frames that are managed of some regions. -/
def clipFrames (regions : List BootMemRegion) : List ℕ :=
  (regions.filterMap regionClip).flatMap PmmUsableRange.frames

variable {regions : List BootMemRegion}

theorem mem_clipFrames {f : ℕ} : f ∈ clipFrames regions ↔
    ∃ r ∈ regions, InRegion r f ∧ PMM_LOW_MEM_LIMIT_PFN ≤ f ∧ f < PMM_HHDM_LIMIT_PFN := by
  simp only [clipFrames, mem_flatMap, mem_filterMap, PmmUsableRange.frames, Ico.mem]
  constructor
  · rintro ⟨u, ⟨r, hr, hu⟩, hf⟩
    unfold regionClip at hu
    split_ifs at hu
    cases hu
    simp only [max_le_iff, lt_min_iff] at hf
    exact ⟨r, hr, ⟨hf.1.1, hf.2.1⟩, hf.1.2, hf.2.2⟩
  · rintro ⟨r, hr, hin, hlow, hhigh⟩
    have hle := max_le hin.1 hlow
    have hlt := lt_min hin.2 hhigh
    exact ⟨_, ⟨r, hr, by rw [regionClip, if_pos (hle.trans_lt hlt)]⟩, hle, hlt⟩

/-- Distinct regions of an accepted map have no frame in common. -/
theorem nodup_clipFrames {l : List BootMemRegion} (hmap : MemMapOk regions) (hl : l.Nodup)
    (hsub : ∀ r ∈ l, r ∈ regions) : (clipFrames l).Nodup := by
  induction l with
  | nil => exact nodup_nil
  | cons r l ih =>
    obtain ⟨hr, hl⟩ := nodup_cons.1 hl
    have hrest := ih hl fun r' h' => hsub r' (mem_cons_of_mem _ h')
    have hcons : clipFrames (r :: l) = clipFrames [r] ++ clipFrames l := by
      rw [clipFrames, ← singleton_append, filterMap_append, flatMap_append]
      rfl
    rw [hcons]
    refine nodup_append.2 ⟨?_, hrest, fun f hf g hg hfg => ?_⟩
    · cases hclip : regionClip r with
      | none => simp [clipFrames, hclip]
      | some u => simpa [clipFrames, hclip, PmmUsableRange.frames] using Ico.nodup _ _
    · subst hfg
      obtain ⟨r1, hr1, hin1, -⟩ := mem_clipFrames.1 hf
      obtain ⟨r2, hr2, hin2, -⟩ := mem_clipFrames.1 hg
      rw [mem_singleton] at hr1
      subst hr1
      have := region_unique hmap (hsub _ mem_cons_self) (hsub _ (mem_cons_of_mem _ hr2))
        hin1 hin2
      exact hr (this ▸ hr2)

variable {r : BootMemRegion}

/-- A recorded region is reclaimed as it is clipped. -/
theorem pmmReclaimClip_reclaimRange (hr : RegionOk r) : pmmReclaimClip (reclaimRange r) =
      (regionClip r).map fun u => (u.startPfn <<< 12, u.endPfn <<< 12) := by
  have hshift : ∀ n, n <<< 12 = n * 4096 := fun n => Nat.shiftLeft_eq n 12
  have hstart : (reclaimRange r).physBase.toNat = regionStart r * 4096 := (regionStart_mul hr).symm
  have hend : ((reclaimRange r).physBase + (reclaimRange r).length).toNat = regionEnd r * 4096 :=
    hr.toNat_end.trans (regionEnd_mul hr).symm
  unfold pmmReclaimClip regionClip
  simp only [hshift, hstart, hend]
  split_ifs <;> simp only [Option.map_some, Option.map_none, Option.some.injEq, Prod.mk.injEq] <;>
    omega

theorem frames_reclaimRange (hr : RegionOk r) : (reclaimRange r).frames = clipFrames [r] := by
  rw [PmmReclaimRange.frames, pmmReclaimClip_reclaimRange hr]
  cases hclip : regionClip r with
  | none => simp [clipFrames, hclip]
  | some u => simp [clipFrames, hclip, PmmUsableRange.frames, Nat.shiftLeft_shiftRight]

theorem rangeAligned_reclaimRange (hr : RegionOk r) : RangeAligned (reclaimRange r) := by
  refine ⟨hr.base_dvd, ?_⟩
  rw [reclaimRange, hr.toNat_end]
  exact Nat.dvd_add hr.base_dvd hr.length_dvd

theorem reclaimFrames_map {l : List BootMemRegion} (hl : ∀ r ∈ l, RegionOk r) :
    reclaimFrames (l.map reclaimRange) = clipFrames l := by
  induction l with
  | nil => rfl
  | cons r l ih =>
    obtain ⟨hr, hl⟩ := forall_mem_cons.1 hl
    have ih := ih hl
    rw [reclaimFrames] at ih ⊢
    rw [map_cons, flatMap_cons, ih, frames_reclaimRange hr, clipFrames, clipFrames,
      clipFrames, ← flatMap_append, ← filterMap_append, singleton_append]

/-- No more is managed of some regions than there is. -/
theorem length_clipFrames_le (l : List BootMemRegion) :
    (clipFrames l).length ≤ (l.map regionPages).sum := by
  induction l with
  | nil => exact le_rfl
  | cons r l ih =>
    unfold clipFrames at ih ⊢
    rw [map_cons, sum_cons, filterMap_cons]
    split
    · exact ih.trans (Nat.le_add_left _ _)
    next u hu =>
      unfold regionClip at hu
      split_ifs at hu
      cases hu
      rw [flatMap_cons, length_append, PmmUsableRange.frames, Ico.length]
      refine Nat.add_le_add ?_ ih
      simp only [regionPages]
      omega

theorem mem_ofType {type : BitVec 32} : r ∈ ofType regions type ↔ r ∈ regions ∧ r.type = type := by
  simp [ofType]

/-- The regions whose frames are handed out at some time. -/
def plannedRegions (regions : List BootMemRegion) : List BootMemRegion :=
  ofType regions BOOT_MEM_USABLE ++ ofType regions BOOT_MEM_LOADER_RECLAIM ++
    (ofType regions BOOT_MEM_ACPI_RECLAIM).take PMM_MAX_RECLAIM_RANGES

theorem mem_plannedRegions
    (h : r ∈ plannedRegions regions) : r ∈ regions ∧ pmmMapTypeIsManaged r.type = true := by
  simp only [plannedRegions, mem_append, mem_ofType] at h
  rcases h with (⟨hr, ht⟩ | ⟨hr, ht⟩) | h
  · exact ⟨hr, by rw [ht]; decide⟩
  · exact ⟨hr, by rw [ht]; decide⟩
  · obtain ⟨hr, ht⟩ := mem_ofType.1 (mem_of_mem_take h)
    exact ⟨hr, by rw [ht]; decide⟩

theorem nodup_plannedRegions (hmap : MemMapOk regions) : (plannedRegions regions).Nodup := by
  have hnodup : regions.Nodup := hmap.sorted.imp_of_mem fun {a b} ha hb hab heq => by
    subst heq
    have := (hmap.region a ha).length_pos
    have hle : a.base.toNat + a.length.toNat ≤ a.base.toNat := hab
    omega
  have htype : ∀ type, (ofType regions type).Nodup := fun type => hnodup.filter _
  -- Regions of different types are different.
  refine nodup_append.2 ⟨nodup_append.2 ⟨htype _, htype _, fun a ha b hb hab => ?_⟩,
    (htype _).sublist (take_sublist _ _), fun a ha b hb hab => ?_⟩
  · subst hab
    have h1 := (mem_ofType.1 ha).2.symm.trans (mem_ofType.1 hb).2
    revert h1
    decide
  · subst hab
    have h2 := (mem_ofType.1 (mem_of_mem_take hb)).2
    rcases mem_append.1 ha with ha | ha <;>
      have h1 := (mem_ofType.1 ha).2.symm.trans h2 <;> revert h1 <;> decide

/-- The plan that the scan and the bump allocator leave. -/
theorem bootPlan {map : PmmMap} {w : EarlyWorld}
    (hmap : MemMapOk regions) (hs : Scanned regions map) (he : EarlyInv map w) :
    BootPlan (pmmEarlySeal w.early).earlyMap w.handed := by
  have hseal : (pmmEarlySeal w.early).earlyMap =
      { map with usable := (pmmEarlySeal w.early).earlyMap.usable } := by
    rw [pmmEarlySeal, if_neg (by simp [he.not_sealed]), he.map_eq]
  have hperm := he.seal
  generalize (pmmEarlySeal w.early).earlyMap = m at hseal hperm ⊢
  have hok : ∀ type, ∀ r ∈ ofType regions type, RegionOk r := fun type r hr =>
    hmap.region r (mem_ofType.1 hr).1
  have hloader : reclaimFrames m.loaderReclaim =
      clipFrames (ofType regions BOOT_MEM_LOADER_RECLAIM) := by
    rw [hseal, hs.loader_eq, reclaimFrames_map (hok _)]
  have hacpi : reclaimFrames m.acpiReclaim =
      clipFrames ((ofType regions BOOT_MEM_ACPI_RECLAIM).take PMM_MAX_RECLAIM_RANGES) := by
    rw [hseal, hs.acpi_eq, reclaimFrames_map fun r hr => hok _ r (mem_of_mem_take hr)]
  have hperm : (usableFrames m ++ w.handed).Perm (clipFrames (ofType regions BOOT_MEM_USABLE)) := by
    rw [clipFrames, ← hs.usable_eq]
    exact hperm
  have hall : (usableFrames m ++ w.handed ++ reclaimFrames m.loaderReclaim ++
      reclaimFrames m.acpiReclaim).Perm (clipFrames (plannedRegions regions)) := by
    rw [hloader, hacpi]
    simp only [plannedRegions, clipFrames, filterMap_append, flatMap_append]
    exact (hperm.append_right _).append_right _
  refine ⟨?_, fun f hf => ?_, ?_, ?_, ?_, ?_, ?_⟩
  · exact hall.nodup_iff.2 (nodup_clipFrames hmap (nodup_plannedRegions hmap) fun r hr =>
      (mem_plannedRegions hr).1)
  · obtain ⟨r, hr, hin, hlow, hhigh⟩ := mem_clipFrames.1 (hall.mem_iff.1 hf)
    obtain ⟨hr, hm⟩ := mem_plannedRegions hr
    have hvalid := hs.spans.valid ⟨r, hr, hm, hin, hhigh⟩
    rw [hseal]
    exact ⟨hlow, hhigh, hvalid⟩
  · rw [hperm.length_eq, clipFrames, ← hs.usable_eq, length_flatMap, hseal]
    simpa [PmmUsableRange.frames] using hs.pages_eq
  · rw [hseal, hs.loader_eq]
    exact forall_mem_map.2 fun r hr => rangeAligned_reclaimRange (hok _ r hr)
  · rw [hseal, hs.acpi_eq]
    exact forall_mem_map.2 fun r hr =>
      rangeAligned_reclaimRange (hok _ r (mem_of_mem_take hr))
  · rw [hloader, hseal, hs.typePages_eq]
    exact length_clipFrames_le _
  · rw [hacpi, hseal, hs.typePages_eq]
    refine (length_clipFrames_le _).trans ?_
    exact ((take_sublist _ _).map _).sum_le_sum fun _ _ => Nat.zero_le _

/-! ## Runs -/

/-- The memory manager after its boot, with the live blocks of its callers and the frames that have
been handed to the buddy core, in order. -/
structure BootWorld where
  boot : PmmBoot
  live : List (ℕ × ℕ)
  entered : List ℕ

/-- A call of the memory manager that adds no memory, or one of the two reclaims. -/
inductive BootStep : BootWorld → BootWorld → Prop
  | call {w : BootWorld} {s' : Pmm} {live' : List (ℕ × ℕ)}
      (h : PmmStep ⟨w.boot.pmm, w.live, {f | f ∈ w.entered}⟩ ⟨s', live', {f | f ∈ w.entered}⟩) :
      BootStep w ⟨{ w.boot with pmm := s' }, live', w.entered⟩
  | reclaimLoader {w : BootWorld} {tablesActive : Bool} {b' : PmmBoot}
      (h : pmmReclaimLoaderMemory tablesActive w.boot = .ok b') :
      BootStep w ⟨b', w.live, w.entered ++ reclaimFrames w.boot.early.earlyMap.loaderReclaim⟩
  | reclaimAcpi {w : BootWorld} {tablesActive : Bool} {b' : PmmBoot}
      (h : pmmReclaimAcpiMemory tablesActive w.boot = .ok b') :
      BootStep w ⟨b', w.live, w.entered ++ reclaimFrames w.boot.early.earlyMap.acpiReclaim⟩

/-- The memory manager as `pmmInit` leaves it. -/
def BootWorld.init (b : PmmBoot) : BootWorld := ⟨b, [], usableFrames b.early.earlyMap⟩

/-- The frames that a reclaim has added, once it is done. -/
def doneFrames (done : Bool) (ranges : List PmmReclaimRange) : List ℕ :=
  if done then reclaimFrames ranges else []

theorem doneFrames_sublist (done : Bool) (ranges : List PmmReclaimRange) :
    (doneFrames done ranges).Sublist (reclaimFrames ranges) := by
  cases done
  · exact nil_sublist _
  · exact List.Sublist.refl _

/-- What holds after the boot: the frames that have entered are those of the usable ranges and of
the reclaims that are done. -/
structure BootInv (e : PmmEarly) (w : BootWorld) : Prop where
  early_eq : w.boot.early = e
  spans_eq : w.boot.pmm.spans = e.earlyMap.spans
  entered : Entered w.boot.pmm w.live w.entered
  perm : w.entered.Perm (usableFrames e.earlyMap ++
    doneFrames w.boot.loaderReclaimDone e.earlyMap.loaderReclaim ++
    doneFrames w.boot.acpiReclaimDone e.earlyMap.acpiReclaim)
  reclaimed_eq : w.boot.reclaimedPages =
    (doneFrames w.boot.loaderReclaimDone e.earlyMap.loaderReclaim).length +
    (doneFrames w.boot.acpiReclaimDone e.earlyMap.acpiReclaim).length

variable {ranges : List PmmReclaimRange} {total : ℕ}

/-- A reclaim that returns was the first of its kind, and came after the kernel's own tables. -/
theorem reclaimChecked_ok {done tablesActive : Bool} {s : Pmm}
    {r : ℕ × Pmm} (h : reclaimChecked done tablesActive s ranges total = .ok r) :
    done = false ∧ tablesActive = true := by
  cases done <;> cases tablesActive <;> first | exact ⟨rfl, rfl⟩ | cases h

/-- The accounting of the memory manager after its boot, where the bump allocator has handed out
`handed`. -/
structure BootAccounting (handed : List ℕ) (w : BootWorld) : Prop where
  /-- No frame enters the buddy core twice: those that have entered are the frames that are not
  `RESERVED`, and the zones have counted each once. -/
  nodup : w.entered.Nodup
  entered_iff : ∀ f, f ∈ w.entered ↔ (w.boot.pmm.pages f).state ≠ .reserved
  managed_eq : (pmmGetStats w.boot).managedPages = w.entered.length
  /-- What enters has a `Page` record and lies between 1 MiB and the end of the direct map. -/
  window : ∀ f ∈ w.entered, PMM_LOW_MEM_LIMIT_PFN ≤ f ∧ f < PMM_HHDM_LIMIT_PFN ∧
    pmmPfnValid w.boot.pmm.spans f
  /-- No frame of the bump allocator enters. -/
  handed : ∀ f ∈ handed, f ∉ w.entered
  /-- The pieces of a reclaim still to come are valid and `RESERVED`, and the reclaim succeeds. -/
  loader : w.boot.loaderReclaimDone = false →
    (∀ f ∈ reclaimFrames w.boot.early.earlyMap.loaderReclaim,
      pmmPfnValid w.boot.pmm.spans f ∧ (w.boot.pmm.pages f).state = .reserved) ∧
    ∃ b', pmmReclaimLoaderMemory true w.boot = .ok b'
  acpi : w.boot.acpiReclaimDone = false →
    (∀ f ∈ reclaimFrames w.boot.early.earlyMap.acpiReclaim,
      pmmPfnValid w.boot.pmm.spans f ∧ (w.boot.pmm.pages f).state = .reserved) ∧
    ∃ b', pmmReclaimAcpiMemory true w.boot = .ok b'
  identity : (pmmGetStats w.boot).usablePages + (pmmGetStats w.boot).reclaimedPages =
    (pmmGetStats w.boot).managedPages + (pmmGetStats w.boot).earlyPages +
      (pmmGetStats w.boot).lowReservedPages + (pmmGetStats w.boot).unmappedPages
  meminfo : pmmPrintMeminfo w.boot = .ok ()

section Plan

variable {e : PmmEarly} {handed : List ℕ} {w : BootWorld}

/-- `reclaimChecked` on ranges whose frames have not entered. -/
theorem BootInv.reclaimChecked (i : BootInv e w) (hal : ∀ r ∈ ranges, RangeAligned r)
    (hvalid : ∀ f ∈ reclaimFrames ranges, pmmPfnValid e.earlyMap.spans f)
    (hnodup : (w.entered ++ reclaimFrames ranges).Nodup)
    (htotal : (reclaimFrames ranges).length ≤ total) :
    ∃ s', Mm.reclaimChecked false true w.boot.pmm ranges total =
        .ok ((reclaimFrames ranges).length, s') ∧ s'.spans = e.earlyMap.spans ∧
      Entered s' w.live (w.entered ++ reclaimFrames ranges) := by
  obtain ⟨s', h, hspans, hs'⟩ := i.entered.reclaimRanges hal (i.spans_eq ▸ hvalid) hnodup
  refine ⟨s', ?_, hspans.trans i.spans_eq, hs'⟩
  rw [Mm.reclaimChecked, if_neg (by decide), if_neg (by decide), h]
  exact if_neg (not_lt.2 htotal)

variable (plan : BootPlan e.earlyMap handed)
include plan

theorem BootPlan.nodup_done (loader acpi : Bool) : (usableFrames e.earlyMap ++
    doneFrames loader e.earlyMap.loaderReclaim ++ doneFrames acpi e.earlyMap.acpiReclaim ++
    handed).Nodup := by
  have hsub := (((List.Sublist.refl (usableFrames e.earlyMap)).append (.refl handed)).append
    (doneFrames_sublist loader e.earlyMap.loaderReclaim)).append
      (doneFrames_sublist acpi e.earlyMap.acpiReclaim)
  refine List.Perm.nodup ?_ (plan.nodup.sublist hsub)
  -- The frames handed out move to the end.
  simp only [append_assoc]
  refine List.Perm.append_left _ (perm_append_comm.trans ?_)
  simp only [append_assoc]
  exact .refl _

omit plan in
/-- The `LOADER_RECLAIM` frames join those that have entered. -/
theorem BootInv.perm_loader (i : BootInv e w) (hdone : w.boot.loaderReclaimDone = false) :
    (w.entered ++ reclaimFrames e.earlyMap.loaderReclaim).Perm (usableFrames e.earlyMap ++
      doneFrames true e.earlyMap.loaderReclaim ++
      doneFrames w.boot.acpiReclaimDone e.earlyMap.acpiReclaim) := by
  have hperm := i.perm.append_right (reclaimFrames e.earlyMap.loaderReclaim)
  rw [hdone] at hperm
  refine hperm.trans ?_
  simp only [doneFrames, Bool.false_eq_true, if_false, if_true, append_nil, append_assoc]
  exact List.Perm.append_left _ perm_append_comm

omit plan in
/-- The `ACPI_RECLAIM` frames join those that have entered. -/
theorem BootInv.perm_acpi (i : BootInv e w) (hdone : w.boot.acpiReclaimDone = false) :
    (w.entered ++ reclaimFrames e.earlyMap.acpiReclaim).Perm (usableFrames e.earlyMap ++
      doneFrames w.boot.loaderReclaimDone e.earlyMap.loaderReclaim ++
      doneFrames true e.earlyMap.acpiReclaim) := by
  have hperm := i.perm.append_right (reclaimFrames e.earlyMap.acpiReclaim)
  simpa [doneFrames, hdone] using hperm

section

variable (i : BootInv e w)

include i

/-- Frames that join those that have entered without a repetition are still `RESERVED`. -/
theorem BootInv.pending {frames : List ℕ} {loader acpi : Bool}
    (hperm : (w.entered ++ frames).Perm (usableFrames e.earlyMap ++
      doneFrames loader e.earlyMap.loaderReclaim ++ doneFrames acpi e.earlyMap.acpiReclaim)) :
    (w.entered ++ frames).Nodup ∧
      ∀ f ∈ frames, (w.boot.pmm.pages f).state = .reserved := by
  have hnodup := hperm.nodup_iff.2 (nodup_append.1 (plan.nodup_done _ _)).1
  refine ⟨hnodup, fun f hf => i.entered.reserved fun hin => ?_⟩
  exact (nodup_append.1 hnodup).2.2 f hin f hf rfl

/-- `pmmReclaimLoaderMemory` succeeds once. -/
theorem BootInv.reclaimLoader (hdone : w.boot.loaderReclaimDone = false) :
    ∃ b', pmmReclaimLoaderMemory true w.boot = .ok b' ∧
      BootInv e ⟨b', w.live, w.entered ++ reclaimFrames e.earlyMap.loaderReclaim⟩ := by
  have hperm := i.perm_loader hdone
  have hnodup := (i.pending plan hperm).1
  obtain ⟨s', h, hspans, hs'⟩ := i.reclaimChecked plan.loader_aligned
    (fun f hf => (plan.window f (by simp [hf])).2.2) hnodup plan.loader_le
  refine ⟨_, by rw [pmmReclaimLoaderMemory, hdone, i.early_eq, h]; rfl, ?_⟩
  refine ⟨rfl, hspans, hs', hperm, ?_⟩
  simp [doneFrames, i.reclaimed_eq, hdone, Nat.add_comm]

/-- `pmmReclaimAcpiMemory` succeeds once. -/
theorem BootInv.reclaimAcpi (hdone : w.boot.acpiReclaimDone = false) :
    ∃ b', pmmReclaimAcpiMemory true w.boot = .ok b' ∧
      BootInv e ⟨b', w.live, w.entered ++ reclaimFrames e.earlyMap.acpiReclaim⟩ := by
  have hperm := i.perm_acpi hdone
  have hnodup := (i.pending plan hperm).1
  obtain ⟨s', h, hspans, hs'⟩ := i.reclaimChecked plan.acpi_aligned
    (fun f hf => (plan.window f (by simp [hf])).2.2) hnodup plan.acpi_le
  refine ⟨_, by rw [pmmReclaimAcpiMemory, hdone, i.early_eq, h]; rfl, ?_⟩
  refine ⟨rfl, hspans, hs', hperm, ?_⟩
  simp [doneFrames, i.reclaimed_eq, hdone]

theorem BootInv.step {w' : BootWorld} (h : BootStep w w') : BootInv e w' := by
  cases h with
  | call h =>
    obtain ⟨inv, hspans⟩ := i.entered.inv.next h
    exact ⟨i.early_eq, hspans.trans i.spans_eq, ⟨inv, i.entered.nodup⟩, i.perm, i.reclaimed_eq⟩
  | reclaimLoader h =>
    obtain ⟨r, hr, -⟩ := FallibleLoop.bind_eq_ok.1 h
    obtain ⟨hdone, rfl⟩ := reclaimChecked_ok hr
    obtain ⟨b', hb', i'⟩ := i.reclaimLoader plan hdone
    cases h.symm.trans hb'
    rwa [i.early_eq]
  | reclaimAcpi h =>
    obtain ⟨r, hr, -⟩ := FallibleLoop.bind_eq_ok.1 h
    obtain ⟨hdone, rfl⟩ := reclaimChecked_ok hr
    obtain ⟨b', hb', i'⟩ := i.reclaimAcpi plan hdone
    cases h.symm.trans hb'
    rwa [i.early_eq]

variable (hused : e.earlyUsedPages = handed.length)

include hused

/-- The pages that have entered are the managed ones, so no page is lost. -/
theorem BootInv.identity :
    (pmmGetStats w.boot).usablePages + (pmmGetStats w.boot).reclaimedPages =
      (pmmGetStats w.boot).managedPages + (pmmGetStats w.boot).earlyPages +
        (pmmGetStats w.boot).lowReservedPages + (pmmGetStats w.boot).unmappedPages := by
  have hlen := i.perm.length_eq
  have hpages := plan.pages_eq
  have hreclaimed := i.reclaimed_eq
  have hmanaged : (w.boot.pmm.zones .dma32).managedPages + (w.boot.pmm.zones .normal).managedPages =
      w.entered.length := i.entered.managed_eq
  simp only [length_append] at hlen hpages
  simp only [pmmGetStats, i.early_eq]
  omega

theorem BootInv.meminfo : pmmPrintMeminfo w.boot = .ok () :=
  if_pos (i.identity plan hused).symm

theorem BootInv.accounting : BootAccounting handed w where
  nodup := i.entered.nodup
  entered_iff f := i.entered.inv.added_iff
  managed_eq := i.entered.managed_eq
  window f hf := by
    have hmem := i.perm.mem_iff.1 hf
    rw [i.spans_eq]
    refine plan.window f ?_
    simp only [mem_append] at hmem ⊢
    rcases hmem with (hmem | hmem) | hmem
    · exact .inl (.inl (.inl hmem))
    · exact .inl (.inr ((doneFrames_sublist _ _).subset hmem))
    · exact .inr ((doneFrames_sublist _ _).subset hmem)
  handed f hf hin := by
    have hnodup := plan.nodup_done w.boot.loaderReclaimDone w.boot.acpiReclaimDone
    exact (nodup_append.1 hnodup).2.2 f (i.perm.mem_iff.1 hin) f hf rfl
  loader hdone := by
    rw [i.early_eq, i.spans_eq]
    obtain ⟨b', hb', -⟩ := i.reclaimLoader plan hdone
    exact ⟨fun f hf => ⟨(plan.window f (by simp [hf])).2.2,
      (i.pending plan (i.perm_loader hdone)).2 f hf⟩, b', hb'⟩
  acpi hdone := by
    rw [i.early_eq, i.spans_eq]
    obtain ⟨b', hb', -⟩ := i.reclaimAcpi plan hdone
    exact ⟨fun f hf => ⟨(plan.window f (by simp [hf])).2.2,
      (i.pending plan (i.perm_acpi hdone)).2 f hf⟩, b', hb'⟩
  identity := i.identity plan hused
  meminfo := i.meminfo plan hused

end

/-- `pmmInit` succeeds, and all usable frames that are left have entered. -/
theorem bootInv_init {early : PmmEarly} {pages : PageArray} (he : pmmEarlySeal early = e)
    (hused : e.earlyUsedPages = handed.length) (hres : ∀ f, (pages f).state = .reserved) :
    ∃ b, pmmInitZones early pages = .ok b ∧ BootInv e (.init b) := by
  have hempty : Entered (.init e.earlyMap.spans pages e.earlyMap.maxPfn) [] [] := by
    refine ⟨?_, nodup_nil⟩
    have := PmmInv.init e.earlyMap.spans e.earlyMap.maxPfn hres
    simpa [PmmWorld.init] using this
  obtain ⟨s, hadd, hspans, hs⟩ := hempty.addUsable e.earlyMap.usable
    (fun f hf => (plan.window f (by simp [usableFrames, hf])).2.2)
    (by simpa [usableFrames, doneFrames] using (nodup_append.1 (plan.nodup_done false false)).1)
  have i : BootInv e (.init ⟨s, e, 0, 0, false, false⟩) :=
    ⟨rfl, hspans, hs, by simp [BootWorld.init, doneFrames], rfl⟩
  have hmem : pmmPrintMeminfo ⟨s, e, 0, 0, false, false⟩ = .ok () := i.meminfo plan hused
  refine ⟨_, ?_, i⟩
  rw [pmmInitZones, he, hadd]
  show (pmmPrintMeminfo ⟨s, e, 0, 0, false, false⟩ >>= fun _ => pure _) = _
  rw [hmem]
  rfl

end Plan

/-- **The boot loses no page and never panics over its map.** On an accepted map that the scan
takes, and after any allocations of the bump allocator, `pmmInit` succeeds, and from then on the
accounting holds after every sequence of calls and reclaims. -/
theorem pmm_bootAccounting {regions : List BootMemRegion} {map : PmmMap} {e : EarlyWorld}
    (pages : PageArray) (hcheck : bootMemMapCheck regions = .ok ())
    (hscan : pmmMapScan regions = .ok map)
    (hearly : Run EarlyStep ⟨pmmEarlyInit map, []⟩ e)
    (hres : ∀ f, (pages f).state = .reserved) :
    ∃ b, pmmInitZones e.early pages = .ok b ∧
      ∀ w, Run BootStep (.init b) w → BootAccounting e.handed w := by
  have hmap := (bootMemMapCheck_eq_ok regions).1 hcheck
  have hs := pmmMapScan_spec hmap hscan
  have hle : ∀ u ∈ map.usable, u.startPfn ≤ u.endPfn := by
    rw [hs.usable_eq]
    intro u hu
    obtain ⟨r, -, hr⟩ := mem_filterMap.1 hu
    unfold regionClip at hr
    split_ifs at hr with hlt
    cases hr
    exact hlt.le
  have he : EarlyInv map e := hearly.invariant (.init hle) EarlyInv.step
  have plan := bootPlan hmap hs he
  have hused : (pmmEarlySeal e.early).earlyUsedPages = e.handed.length := by
    rw [pmmEarlySeal, if_neg (by simp [he.not_sealed])]
    exact he.used_eq
  obtain ⟨b, hb, i⟩ := bootInv_init plan rfl hused hres
  refine ⟨b, hb, fun w hrun => ?_⟩
  have i' : BootInv (pmmEarlySeal e.early) w :=
    hrun.invariant i fun i h => i.step plan h
  exact i'.accounting plan hused

/-- A small machine: low memory, four usable pages at 1 MiB, and two of the loader's. -/
def smallMap : List BootMemRegion :=
  [⟨0, 0x9F000, BOOT_MEM_USABLE, 0⟩, ⟨0x100000, 0x4000, BOOT_MEM_USABLE, 0⟩,
    ⟨0x104000, 0x2000, BOOT_MEM_LOADER_RECLAIM, 0⟩]

/-- The small machine boots with one page for the bump allocator and reclaims the loader's pages. -/
theorem pmm_bootAccounting_smallMap : ∃ map e b w, bootMemMapCheck smallMap = .ok () ∧
    pmmMapScan smallMap = .ok map ∧ Run EarlyStep ⟨pmmEarlyInit map, []⟩ e ∧ e.handed = [0x103] ∧
    pmmInitZones e.early (fun _ => {}) = .ok b ∧ Run BootStep (.init b) w ∧
    w.boot.loaderReclaimDone = true ∧ BootAccounting e.handed w := by
  have hcheck : bootMemMapCheck smallMap = .ok () := by decide
  obtain ⟨map, hscan, e, hearly⟩ : ∃ map, pmmMapScan smallMap = .ok map ∧
      ∃ e, pmmEarlyAllocPages (pmmEarlyInit map) 1 = .ok (.ok (0x103000, e)) := ⟨_, rfl, _, rfl⟩
  have hrun : Run EarlyStep ⟨pmmEarlyInit map, []⟩ ⟨e, [] ++ List.range' (0x103000 >>> 12) 1⟩ :=
    .single (.alloc hearly)
  obtain ⟨b, hb, hacc⟩ := pmm_bootAccounting (fun _ => {}) hcheck hscan hrun fun _ => rfl
  have hdone : b.loaderReclaimDone = false := by
    obtain ⟨s, -, hb⟩ := FallibleLoop.bind_eq_ok.1 hb
    obtain ⟨_, -, hb⟩ := FallibleLoop.bind_eq_ok.1 hb
    cases hb
    rfl
  obtain ⟨-, b', hb'⟩ := (hacc (.init b) .refl).loader hdone
  have hreclaim : Run BootStep (.init b) ⟨b', [], _⟩ := .single (.reclaimLoader hb')
  refine ⟨map, _, b, _, hcheck, hscan, hrun, rfl, hb, hreclaim, ?_, hacc _ hreclaim⟩
  obtain ⟨_, -, hb'⟩ := FallibleLoop.bind_eq_ok.1 hb'
  cases hb'
  rfl

end Bongos.Mm
