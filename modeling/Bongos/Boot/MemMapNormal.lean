import Bongos.Boot.MemMapSweep

/-!
# Normalisation is exact

`NormalMap` says what the map of a list of inputs is, page by page. There is exactly one such map,
and `memMapNormalize` writes it, or reports that it does not fit.
-/

namespace Bongos.Boot

open BitVec (le_def lt_def ofNat_toNat setWidth_eq toNat_ofNat)
open List

open Bongos.Core

/-! ## The specification -/

/-- The pages of an input: usable memory is rounded inward, everything else outward. An input that
is empty, before or after rounding, or reaches the end of the address space has none. -/
def roundPages (r : MemMapInput) : Option (ℕ × ℕ) :=
  let lo := r.base.toNat
  let hi := r.base.toNat + r.length.toNat
  let range := if r.type = BOOT_MEM_USABLE then ((lo + 4095) / 4096, hi / 4096)
    else (lo / 4096, (hi + 4095) / 4096)
  if 0 < r.length.toNat ∧ hi < 2^64 ∧ range.2 * 4096 < 2^64 ∧ range.1 < range.2 then some range
  else none

/-- An input of type `t` covers the page. -/
def Covers (input : List MemMapInput) (page : ℕ) (t : BitVec 32) : Prop :=
  ∃ r ∈ input, r.type = t ∧ 0 ≤ memMapRank t ∧
    ∃ a b, roundPages r = some (a, b) ∧ a ≤ page ∧ page < b

/-- The type of a page: the highest-ranked type that covers it. -/
def PageType (input : List MemMapInput) (page : ℕ) (t : BitVec 32) : Prop :=
  Covers input page t ∧ ∀ u, Covers input page u → memMapRank u ≤ memMapRank t

/-- The page is in the region. -/
def PageIn (r : BootMemRegion) (page : ℕ) : Prop :=
  r.base.toNat ≤ page * 4096 ∧ page * 4096 < r.base.toNat + r.length.toNat

/-- The map of a list of inputs: regions that the kernel accepts, no two of which touch and have the
same type, and which give every page its type. -/
structure NormalMap (input : List MemMapInput) (regions : List BootMemRegion) : Prop where
  ok : MemMapOk regions
  separated : regions.Pairwise fun a b =>
    a.base.toNat + a.length.toNat = b.base.toNat → a.type ≠ b.type
  types : ∀ page t, (∃ r ∈ regions, PageIn r page ∧ r.type = t) ↔ PageType input page t

/-! ## Rounding -/

/-- The rounding of the source is the rounding to pages. -/
theorem memMapRoundInput_eq (r : MemMapInput) : memMapRoundInput r = (roundPages r).map fun range =>
      (BitVec.ofNat 64 (range.1 * 4096), BitVec.ofNat 64 (range.2 * 4096)) := by
  have hlen0 : r.length = 0 ↔ r.length.toNat = 0 := by rw [← BitVec.toNat_inj]; rfl
  have hend : (r.base + r.length).toNat = (r.base.toNat + r.length.toNat) % 2^64 :=
    BitVec.toNat_add _ _
  have heq : ∀ (x : BitVec 64) n, x.toNat = n → x = BitVec.ofNat 64 n := fun x n h => by
    rw [← h, ofNat_toNat, setWidth_eq]
  unfold memMapRoundInput roundPages
  by_cases husable : r.type = BOOT_MEM_USABLE
  · have hup : (bootAlignUp r.base MEM_MAP_PAGE_SIZE).toNat = _ := toNat_bootAlignUp r.base
    have hdown : (bootAlignDown (r.base + r.length) MEM_MAP_PAGE_SIZE).toNat = _ :=
      toNat_bootAlignDown (r.base + r.length)
    simp only [hlen0, lt_def, le_def, hup, hdown, hend]
    split_ifs
    any_goals first | rfl | omega
    have hb := hup.trans (show _ = (r.base.toNat + 4095) / 4096 * 4096 by omega)
    have he := hdown.trans (show _ = (r.base.toNat + r.length.toNat) / 4096 * 4096 by omega)
    rw [heq _ _ hb, heq _ _ he]
    rfl
  · have hup : (bootAlignUp (r.base + r.length) MEM_MAP_PAGE_SIZE).toNat = _ :=
      toNat_bootAlignUp (r.base + r.length)
    have hdown : (bootAlignDown r.base MEM_MAP_PAGE_SIZE).toNat = _ := toNat_bootAlignDown r.base
    simp only [hlen0, lt_def, le_def, hup, hdown, hend]
    split_ifs
    any_goals first | rfl | omega
    have he := hup.trans (show _ = (r.base.toNat + r.length.toNat + 4095) / 4096 * 4096 by omega)
    rw [heq _ _ hdown, heq _ _ he]
    rfl

variable {r : MemMapInput} {input : List MemMapInput} {x : ℕ} {t : BitVec 32}
  {regions : List BootMemRegion}

theorem roundPages_lt {a b : ℕ} (h : roundPages r = some (a, b)) : a < b ∧ b * 4096 < 2^64 := by
  unfold roundPages at h
  dsimp only at h
  generalize (if r.type = BOOT_MEM_USABLE then _ else _ : ℕ × ℕ) = range at h
  split_ifs at h with hcond
  obtain rfl := Option.some.inj h
  exact ⟨hcond.2.2.2, hcond.2.2.1⟩

theorem memMapRoundInput_eq_some {b e : BitVec 64} : memMapRoundInput r = some (b, e) ↔
      ∃ a c, roundPages r = some (a, c) ∧ b.toNat = a * 4096 ∧ e.toNat = c * 4096 := by
  rw [memMapRoundInput_eq, Option.map_eq_some_iff]
  constructor
  · rintro ⟨⟨a, c⟩, hround, heq⟩
    obtain ⟨hac, hc⟩ := roundPages_lt hround
    have ha : a * 4096 < 2^64 := Nat.lt_trans (Nat.mul_lt_mul_of_pos_right hac (by decide)) hc
    obtain ⟨rfl, rfl⟩ := Prod.mk.inj heq
    refine ⟨a, c, hround, ?_, ?_⟩
    · rw [toNat_ofNat, Nat.mod_eq_of_lt ha]
    · rw [toNat_ofNat, Nat.mod_eq_of_lt hc]
  · rintro ⟨a, c, hround, hb, he⟩
    refine ⟨(a, c), hround, Prod.ext ?_ ?_⟩
    · rw [← hb, ofNat_toNat, setWidth_eq]
    · rw [← he, ofNat_toNat, setWidth_eq]

/-- The address is covered as its page is. -/
theorem coverAt_iff_covers : CoverAt input x t ↔ Covers input (x / 4096) t := by
  constructor
  · rintro ⟨r, hr, ht, hrank, b, e, hround, hb, he⟩
    obtain ⟨a, c, hpages, hba, hec⟩ := memMapRoundInput_eq_some.1 hround
    exact ⟨r, hr, ht, hrank, a, c, hpages, by omega, by omega⟩
  · rintro ⟨r, hr, ht, hrank, a, c, hpages, ha, hc⟩
    obtain ⟨hac, hlt⟩ := roundPages_lt hpages
    have halt : a * 4096 < 2^64 := Nat.lt_trans (Nat.mul_lt_mul_of_pos_right hac (by decide)) hlt
    refine ⟨r, hr, ht, hrank, BitVec.ofNat 64 (a * 4096), BitVec.ofNat 64 (c * 4096), ?_, ?_, ?_⟩
    · rw [memMapRoundInput_eq, hpages]
      rfl
    · rw [toNat_ofNat, Nat.mod_eq_of_lt halt]
      omega
    · rw [toNat_ofNat, Nat.mod_eq_of_lt hlt]
      omega

theorem bestAt_iff_pageType : BestAt input x t ↔ PageType input (x / 4096) t := by
  simp only [BestAt, PageType, coverAt_iff_covers]

/-! ## The points of the inputs -/

theorem collectPoints_concat : collectPoints (input ++ [r]) = match memMapRoundInput r with
      | none => collectPoints input
      | some (b, e) => pushPoint (pushPoint (collectPoints input) b) e := by
  rw [collectPoints, foldl_append]
  rfl

/-- As long as the counter does not wrap, the points are those of all inputs. -/
theorem collectPoints_spec (h : input.length < 2^31) :
    (collectPoints input).length ≤ 2 * input.length ∧
      ∀ p, p ∈ collectPoints input ↔
        ∃ r ∈ input, ∃ b e, memMapRoundInput r = some (b, e) ∧ (p = b ∨ p = e) := by
  induction input using List.reverseRecOn with
  | nil => exact ⟨Nat.le_refl _, fun p => by simp [collectPoints]⟩
  | append_singleton input r ih =>
    rw [length_append, length_singleton] at h
    obtain ⟨hlen, hmem⟩ := ih (by omega)
    rw [collectPoints_concat, length_append, length_singleton]
    cases hround : memMapRoundInput r with
    | none =>
      refine ⟨by dsimp only; omega, fun p => ?_⟩
      simp only [hmem, mem_append, mem_singleton, or_and_right, exists_or, exists_eq_left,
        hround, reduceCtorEq, false_and, exists_false, or_false]
    | some range =>
      obtain ⟨b, e⟩ := range
      dsimp only
      have hpush : pushPoint (pushPoint (collectPoints input) b) e =
          collectPoints input ++ [b] ++ [e] := by
        rw [pushPoint, pushPoint, if_neg (by omega : ¬ (collectPoints input).length + 1 = 2^32),
          length_append, length_singleton, if_neg (by omega)]
      rw [hpush]
      refine ⟨by simp only [length_append, length_singleton]; omega, fun p => ?_⟩
      simp only [mem_append, hmem, mem_singleton, or_and_right, exists_or, exists_eq_left,
        hround, Option.some.injEq, Prod.mk.injEq, and_assoc]
      constructor
      · rintro ((hp | hp) | hp)
        · exact .inl hp
        · exact .inr ⟨b, e, rfl, rfl, .inl hp⟩
        · exact .inr ⟨b, e, rfl, rfl, .inr hp⟩
      · rintro (hp | ⟨b', e', rfl, rfl, hp | hp⟩)
        · exact .inl (.inl hp)
        · exact .inl (.inr hp)
        · exact .inr hp

/-! ## Maps as runs -/

/-- A region in order holds an address as it holds its page. -/
theorem RegionOk.pageIn_iff {r : BootMemRegion} (h : RegionOk r) :
    PageIn r (x / 4096) ↔ r.base.toNat ≤ x ∧ x < r.base.toNat + r.length.toNat := by
  have h1 := h.base_dvd
  have h2 := h.length_dvd
  unfold PageIn
  omega

/-- The map is the canonical list of runs that labels every address with its best type. -/
theorem normalMap_iff :
    NormalMap input regions ↔ (∀ r ∈ regions, RegionOk r) ∧ Canonical (regions.map toRun) ∧
      ∀ x t, LabelAt (regions.map toRun) x t ↔ BestAt input x t := by
  have hlabels : (∀ r ∈ regions, RegionOk r) → ∀ x t, LabelAt (regions.map toRun) x t ↔
      ∃ r ∈ regions, PageIn r (x / 4096) ∧ r.type = t := by
    intro hok x t
    constructor
    · rintro ⟨run, hrun, hlo, hhi, ht⟩
      obtain ⟨r, hr, rfl⟩ := mem_map.1 hrun
      exact ⟨r, hr, (RegionOk.pageIn_iff (hok r hr)).2 ⟨hlo, hhi⟩, ht⟩
    · rintro ⟨r, hr, hpage, ht⟩
      obtain ⟨hlo, hhi⟩ := (RegionOk.pageIn_iff (hok r hr)).1 hpage
      exact ⟨toRun r, mem_map_of_mem hr, hlo, hhi, ht⟩
  constructor
  · rintro ⟨⟨hok, hsorted⟩, hsep, htypes⟩
    refine ⟨hok, ⟨fun run hrun => ?_, pairwise_map.2 (hsorted.and hsep)⟩, fun x t => ?_⟩
    · obtain ⟨r, hr, rfl⟩ := mem_map.1 hrun
      exact Nat.lt_add_of_pos_right (hok r hr).length_pos
    · rw [hlabels hok, htypes, bestAt_iff_pageType]
  · rintro ⟨hok, hcanon, hbest⟩
    have hpairs := pairwise_map.1 hcanon.sorted
    refine ⟨⟨hok, hpairs.imp And.left⟩, hpairs.imp And.right, fun page t => ?_⟩
    have hpage := hlabels hok (page * 4096) t
    rw [hbest, bestAt_iff_pageType, Nat.mul_div_cancel page (by decide)] at hpage
    exact hpage.symm

/-- The region of a run. -/
def ofRun (run : LabelledRun (BitVec 32)) : BootMemRegion :=
  ⟨BitVec.ofNat 64 run.lo, BitVec.ofNat 64 (run.hi - run.lo), run.label, 0⟩

/-- Regions in order are determined by their runs. -/
theorem map_ofRun_map_toRun (h : ∀ r ∈ regions, RegionOk r) :
    (regions.map toRun).map ofRun = regions := by
  rw [map_map]
  refine (map_congr_left fun r hr => ?_).trans (map_id regions)
  have hres := (h r hr).reserved_eq
  obtain ⟨base, length, type, reserved⟩ := r
  obtain rfl : reserved = 0 := hres
  simp only [Function.comp_apply, toRun, ofRun, Nat.add_sub_cancel_left, ofNat_toNat,
    setWidth_eq, id]

/-- There is at most one map. -/
theorem NormalMap.unique {regions' : List BootMemRegion}
    (h : NormalMap input regions) (h' : NormalMap input regions') : regions = regions' := by
  obtain ⟨hok, hcanon, hbest⟩ := normalMap_iff.1 h
  obtain ⟨hok', hcanon', hbest'⟩ := normalMap_iff.1 h'
  have hruns := hcanon.ext hcanon' fun x t => (hbest x t).trans (hbest' x t).symm
  rw [← map_ofRun_map_toRun hok, hruns, map_ofRun_map_toRun hok']

/-- The map depends on which inputs there are, not on their order. -/
theorem NormalMap.of_mem_iff {input' : List MemMapInput}
    (h : NormalMap input regions) (hmem : ∀ r, r ∈ input ↔ r ∈ input') :
    NormalMap input' regions := by
  refine ⟨h.ok, h.separated, fun page t => ?_⟩
  simp only [h.types, PageType, Covers, hmem]

/-! ## The sweep writes the map -/

/-- The points of the sweep: in order, and the end points of the rounded inputs. -/
theorem sweepInput_spec (h : input.length < 2^31) :
    (uniquePoints (sortPoints (collectPoints input))).Pairwise (· < ·) ∧
      ∀ p, p ∈ uniquePoints (sortPoints (collectPoints input)) ↔
        ∃ r ∈ input, ∃ b e, memMapRoundInput r = some (b, e) ∧ (p = b ∨ p = e) := by
  obtain ⟨hsorted, hsort⟩ := sortPoints_spec (collectPoints input)
  obtain ⟨hstrict, huniq⟩ := uniquePoints_spec hsorted
  exact ⟨hstrict, fun p => by rw [huniq, hsort, (collectPoints_spec h).2]⟩

theorem normalMap_sweepAll (h : input.length < 2^31) :
    NormalMap input (sweepAll input (uniquePoints (sortPoints (collectPoints input))) []) := by
  obtain ⟨hstrict, hmem⟩ := sweepInput_spec h
  generalize uniquePoints (sortPoints (collectPoints input)) = points at hstrict hmem
  have hpoint : ∀ r ∈ input, ∀ b e, memMapRoundInput r = some (b, e) → b ∈ points ∧ e ∈ points :=
    fun r hr b e hround =>
      ⟨(hmem b).2 ⟨r, hr, b, e, hround, .inl rfl⟩, (hmem e).2 ⟨r, hr, b, e, hround, .inr rfl⟩⟩
  have hpage : ∀ p ∈ points, 4096 ∣ p.toNat := by
    intro p hp
    obtain ⟨r, -, b, e, hround, hpbe⟩ := (hmem p).1 hp
    obtain ⟨a, c, -, hb, he⟩ := memMapRoundInput_eq_some.1 hround
    rcases hpbe with rfl | rfl
    · exact ⟨a, by omega⟩
    · exact ⟨c, by omega⟩
  rw [normalMap_iff]
  cases points with
  | nil =>
    refine ⟨fun r hr => absurd hr not_mem_nil, .nil, fun x t => ?_⟩
    refine iff_of_false (fun ⟨r, hr, _⟩ => absurd hr not_mem_nil) fun hbest => ?_
    obtain ⟨r, hr, -, -, b, e, hround, -⟩ := hbest.1
    exact absurd (hpoint r hr b e hround).1 not_mem_nil
  | cons p points =>
    have hfirst : ∀ q ∈ p :: points, p.toNat ≤ q.toNat := by
      intro q hq
      rcases mem_cons.1 hq with rfl | hq
      · exact Nat.le_refl _
      · exact Nat.le_of_lt ((pairwise_cons.1 hstrict).1 q hq)
    have hstart : SweepOk input p.toNat [] := by
      refine ⟨.nil, fun r hr => absurd hr not_mem_nil, fun r hr => absurd hr not_mem_nil,
        fun x t => iff_of_false (fun ⟨r, hr, _⟩ => absurd hr not_mem_nil) ?_⟩
      rintro ⟨hx, ⟨r, hr, -, -, b, e, hround, hb, -⟩, -⟩
      have := hfirst b (hpoint r hr b e hround).1
      omega
    have hsweep := sweepAll_spec hstrict hpage (fun r hr b e hround => ?_) hstart
    · refine ⟨hsweep.region, hsweep.canonical, fun x t => ?_⟩
      rw [hsweep.labels]
      refine ⟨And.right, fun hbest => ⟨?_, hbest⟩⟩
      -- Nothing covers an address behind the last point.
      obtain ⟨r, hr, -, -, b, e, hround, -, he⟩ := hbest.1
      have hlast : ∀ q ∈ p :: points,
          q.toNat ≤ ((p :: points).getLast (cons_ne_nil p points)).toNat := fun q hq =>
        (hstrict.imp Nat.le_of_lt
          ).rel_getLast_of_rel_getLast_getLast hq (Nat.le_refl _)
      exact Nat.lt_of_lt_of_le he (hlast e (hpoint r hr b e hround).2)
    · obtain ⟨hb, he⟩ := hpoint r hr b e hround
      exact ⟨(mem_cons.1 hb).imp_left fun heq : b = p => heq ▸ BitVec.le_refl b,
        (mem_cons.1 he).imp_left fun heq : e = p => heq ▸ BitVec.le_refl e⟩

/-- `memMapNormalize` writes the map if there is room for it, and otherwise the front of it. -/
theorem NormalMap.memMapNormalize_eq
    (h : NormalMap input regions) (hlen : input.length < 2^31) (outCap : ℕ) :
    memMapNormalize input outCap = if regions.length ≤ outCap then (.ok, regions)
      else (.errMemmapCapacity, regions.take outCap) := by
  rw [h.unique (normalMap_sweepAll hlen)]
  exact sweepPoints_eq input outCap (Nat.zero_le _)

/-- What `memMapNormalize` writes when it succeeds is the map. -/
theorem normalMap_of_memMapNormalize
    {outCap : ℕ} (hlen : input.length < 2^31) (h : memMapNormalize input outCap = (.ok, regions)) :
    NormalMap input regions := by
  have hmap := normalMap_sweepAll hlen
  rw [hmap.memMapNormalize_eq hlen] at h
  split_ifs at h
  · exact (Prod.mk.inj h).2 ▸ hmap
  · cases h

theorem memMapRank_le (t : BitVec 32) : memMapRank t ≤ 8 := by
  unfold memMapRank
  split_ifs <;> decide

/-- A page that is covered has a type. -/
theorem Covers.exists_pageType {page : ℕ}
    (h : Covers input page t) : ∃ u, PageType input page u := by
  -- Ranks are bounded, so that a search for a higher one ends.
  induction hn : (8 - memMapRank t).toNat using Nat.strong_induction_on generalizing t with
  | _ n ih =>
    by_cases hmax : ∀ u, Covers input page u → memMapRank u ≤ memMapRank t
    · exact ⟨t, h, hmax⟩
    · obtain ⟨u, hu⟩ := not_forall.1 hmax
      obtain ⟨hu, hlt⟩ := Classical.not_imp.1 hu
      have := memMapRank_le u
      exact ih _ (by omega) hu rfl

/-- The map holds the pages that are covered. -/
theorem NormalMap.mem_iff (h : NormalMap input regions) (page : ℕ) :
    (∃ r ∈ regions, PageIn r page) ↔ ∃ t, Covers input page t := by
  constructor
  · rintro ⟨r, hr, hpage⟩
    exact ⟨r.type, ((h.types page r.type).1 ⟨r, hr, hpage, rfl⟩).1⟩
  · rintro ⟨t, ht⟩
    obtain ⟨u, hu⟩ := ht.exists_pageType
    obtain ⟨r, hr, hpage, -⟩ := (h.types page u).2 hu
    exact ⟨r, hr, hpage⟩

/-- The map of the inputs exists and is the only one: a page is in it exactly if an input covers it.
`memMapNormalize` writes it if there is room, and otherwise the front of it; neither depends on the
order of the inputs. The kernel accepts the map. -/
theorem memMapNormalize_exact {input : List MemMapInput} (h : input.length < 2^31) :
    ∃ regions, NormalMap input regions ∧
      (∀ regions', NormalMap input regions' → regions' = regions) ∧
      (∀ page, (∃ r ∈ regions, PageIn r page) ↔ ∃ t, Covers input page t) ∧
      bootMemMapCheck regions = .ok () ∧
      ∀ input', input.Perm input' → ∀ outCap, memMapNormalize input' outCap =
        if regions.length ≤ outCap then (.ok, regions)
        else (.errMemmapCapacity, regions.take outCap) := by
  have hmap := normalMap_sweepAll h
  refine ⟨_, hmap, fun regions' h' => h'.unique hmap, hmap.mem_iff,
    (bootMemMapCheck_eq_ok _).2 hmap.ok, fun input' hperm outCap => ?_⟩
  exact (hmap.of_mem_iff fun r => hperm.mem_iff).memMapNormalize_eq (hperm.length_eq ▸ h) outCap

/-- Two ranges of firmware, one of which cuts into the other: the page that both touch is
reserved. -/
theorem memMapNormalize_exact_overlap :
    memMapNormalize [⟨0x1000, 0x3000, 1⟩, ⟨0x2800, 0x1000, 2⟩] 4 =
      (.ok, [⟨0x1000, 0x1000, 1, 0⟩, ⟨0x2000, 0x2000, 2, 0⟩]) := by
  obtain ⟨regions, -, -, -, -, hnorm⟩ := memMapNormalize_exact
    (show [(⟨0x1000, 0x3000, 1⟩ : MemMapInput), ⟨0x2800, 0x1000, 2⟩].length < 2^31 by decide)
  have hreverse := hnorm [⟨0x2800, 0x1000, 2⟩, ⟨0x1000, 0x3000, 1⟩] (Perm.swap _ _ _) 4
  rw [hnorm _ (Perm.refl _) 4, ← hreverse]
  decide +kernel

/-! ## The counter of the points -/

theorem length_pushPoint {points : List (BitVec 64)} (h : points.length < 2^32) (p : BitVec 64) :
    (pushPoint points p).length = (points.length + 1) % 2^32 := by
  unfold pushPoint
  split_ifs with hwrap
  · rw [hwrap]
    rfl
  · rw [length_append, length_singleton, Nat.mod_eq_of_lt (by omega)]

/-- Every input that is kept adds two points, and the counter wraps. -/
theorem length_collectPoints_replicate {b e : BitVec 64}
    (h : memMapRoundInput r = some (b, e)) (n : ℕ) :
    (collectPoints (List.replicate n r)).length = 2 * n % 2^32 := by
  induction n with
  | zero => rfl
  | succ n ih =>
    have hlt : (collectPoints (List.replicate n r)).length < 2^32 := by
      rw [ih]
      exact Nat.mod_lt _ (by decide)
    have hlt' : (pushPoint (collectPoints (List.replicate n r)) b).length < 2^32 := by
      rw [length_pushPoint hlt]
      exact Nat.mod_lt _ (by decide)
    have hstep : collectPoints (List.replicate (n + 1) r) =
        pushPoint (pushPoint (collectPoints (List.replicate n r)) b) e := by
      rw [replicate_succ', collectPoints_concat, h]
    rw [hstep, length_pushPoint hlt', length_pushPoint hlt, ih]
    omega

/-- With `2^31` ranges the counter of the points wraps to 0: nothing is written, although the page 1
is covered. -/
theorem memMapNormalize_wraps :
    memMapNormalize (List.replicate (2^31) ⟨0x1000, 0x1000, 1⟩) 1 = (.ok, []) ∧
      Covers (List.replicate (2^31) ⟨0x1000, 0x1000, 1⟩) 1 BOOT_MEM_USABLE := by
  have hround : memMapRoundInput ⟨0x1000, 0x1000, 1⟩ = some (0x1000, 0x2000) := by decide
  have hpoints : collectPoints (List.replicate (2^31) ⟨0x1000, 0x1000, 1⟩) = [] := by
    rw [← length_eq_zero_iff, length_collectPoints_replicate hround]
    decide
  constructor
  · rw [memMapNormalize, hpoints]
    rfl
  · refine ⟨_, mem_replicate.2 ⟨by decide, rfl⟩, rfl, by decide, 1, 2, by decide, ?_⟩
    decide

end Bongos.Boot
