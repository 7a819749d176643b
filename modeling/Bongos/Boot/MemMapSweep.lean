import Bongos.Boot.MemMap
import Bongos.LabelledRuns

/-!
# The sweep over the end points

The points are sorted and different, so that between two neighbouring points every input covers
everything or nothing. The regions that the sweep has written are then a canonical list of runs,
which labels every address below the current point with the best type of the inputs that cover it.
-/

namespace Bongos.Boot

open List

open Bongos.Core (BootMemRegion RegionOk)

/-! ## Points -/

variable {key p : BitVec 64} {points : List (BitVec 64)} {t u : BitVec 32}
  {input : List MemMapInput} {r : MemMapInput} {best : ℤ × BitVec 32} {out : List BootMemRegion}

theorem mem_insertPoint : p ∈ insertPoint key points ↔ p = key ∨ p ∈ points := by
  induction points with
  | nil => simp [insertPoint]
  | cons q points ih =>
    unfold insertPoint
    split_ifs with hgt
    · rw [mem_cons, ih, mem_cons]
      tauto
    · rw [mem_cons]

/-- Points from the largest down. -/
theorem insertPoint_sorted
    (h : points.Pairwise (· ≥ ·)) : (insertPoint key points).Pairwise (· ≥ ·) := by
  induction points with
  | nil => exact pairwise_singleton _ _
  | cons q points ih =>
    obtain ⟨hq, hpoints⟩ := pairwise_cons.1 h
    unfold insertPoint
    split_ifs with hgt
    · refine pairwise_cons.2 ⟨fun p hp => ?_, ih hpoints⟩
      rcases mem_insertPoint.1 hp with rfl | hp
      · exact BitVec.le_of_lt hgt
      · exact hq p hp
    · have hle : q ≤ key := BitVec.not_lt.1 hgt
      refine pairwise_cons.2 ⟨fun p hp => ?_, h⟩
      rcases mem_cons.1 hp with rfl | hp
      · exact hle
      · exact BitVec.le_trans (hq p hp) hle

theorem sortPoints_spec (points : List (BitVec 64)) :
    (sortPoints points).Pairwise (· ≤ ·) ∧ ∀ p, p ∈ sortPoints points ↔ p ∈ points := by
  have hfold : ∀ (points sorted : List (BitVec 64)), sorted.Pairwise (· ≥ ·) →
      (points.foldl (fun sorted key => insertPoint key sorted) sorted).Pairwise (· ≥ ·) ∧
      ∀ p, p ∈ points.foldl (fun sorted key => insertPoint key sorted) sorted ↔
        p ∈ points ∨ p ∈ sorted := by
    intro points
    induction points with
    | nil => exact fun sorted h => ⟨h, fun p => by simp⟩
    | cons q points ih =>
      intro sorted h
      obtain ⟨hsorted, hmem⟩ := ih _ (insertPoint_sorted h)
      refine ⟨hsorted, fun p => ?_⟩
      rw [foldl_cons, hmem, mem_insertPoint, mem_cons]
      tauto
  obtain ⟨hsorted, hmem⟩ := hfold points [] .nil
  refine ⟨pairwise_reverse.2 hsorted, fun p => ?_⟩
  rw [sortPoints, mem_reverse, hmem]
  simp

/-- The kept points increase. -/
theorem uniquePoints_spec (h : points.Pairwise (· ≤ ·)) :
    (uniquePoints points).Pairwise (· < ·) ∧ ∀ p, p ∈ uniquePoints points ↔ p ∈ points := by
  induction points using List.reverseRecOn with
  | nil => exact ⟨.nil, fun p => Iff.rfl⟩
  | append_singleton points q ih =>
    obtain ⟨hpoints, -, hq⟩ := pairwise_append.1 h
    obtain ⟨hsorted, hmem⟩ := ih hpoints
    have hstep : uniquePoints (points ++ [q]) =
        if (uniquePoints points).getLast? = some q then uniquePoints points
        else uniquePoints points ++ [q] := by
      rw [uniquePoints, foldl_append]
      rfl
    rw [hstep]
    split_ifs with hlast
    · refine ⟨hsorted, fun p => ?_⟩
      have hqmem : q ∈ points := (hmem q).1 (mem_of_getLast? hlast)
      rw [hmem, mem_append, mem_singleton]
      exact ⟨.inl, fun hp => hp.elim id fun hpq => hpq ▸ hqmem⟩
    · refine ⟨pairwise_append.2 ⟨hsorted, pairwise_singleton _ _, ?_⟩, fun p => ?_⟩
      · intro p hp q' hq'
        obtain rfl := mem_singleton.1 hq'
        refine BitVec.lt_of_le_ne (hq p ((hmem p).1 hp) _ (mem_singleton_self _)) ?_
        -- A kept point that equals `q` would be the last one, since nothing is above `q`.
        rintro rfl
        obtain ⟨front, back, hsplit⟩ := append_of_mem hp
        cases back with
        | nil => exact hlast (by simp [hsplit])
        | cons b back =>
          rw [hsplit] at hsorted hmem
          have hlt : p < b := (pairwise_cons.1 (pairwise_append.1 hsorted).2.1).1 b
            (mem_cons_self ..)
          have hle : b ≤ p := hq b ((hmem b).1 (by simp)) p (mem_singleton_self _)
          exact absurd hle (BitVec.not_le.2 hlt)
      · rw [mem_append, mem_append, hmem]

/-! ## Ranks -/

/-- The type of a rank. -/
def typeOfRank (rank : ℤ) : BitVec 32 :=
  if rank = 0 then 1 else if rank = 1 then 6 else if rank = 2 then 8 else if rank = 3 then 7
  else if rank = 4 then 3 else if rank = 5 then 4 else if rank = 6 then 2 else if rank = 7 then 9
  else 5

theorem typeOfRank_memMapRank (h : 0 ≤ memMapRank t) : typeOfRank (memMapRank t) = t := by
  unfold memMapRank at h ⊢
  split_ifs at h ⊢ <;> first | (subst_vars; rfl) | omega

/-- A type with a rank is determined by it. -/
theorem memMapRank_inj (ht : 0 ≤ memMapRank t) (h : memMapRank t = memMapRank u) : t = u := by
  rw [← typeOfRank_memMapRank ht, h, typeOfRank_memMapRank (h ▸ ht)]

/-- The types with a rank are the `BootMemType`s. -/
theorem memMapRank_nonneg (h : 0 ≤ memMapRank t) : 1 ≤ t.toNat ∧ t.toNat ≤ 9 := by
  unfold memMapRank at h
  split_ifs at h <;> first | (subst_vars; decide) | omega

/-! ## Covers -/

/-- An input of type `t`, rounded, covers the address `x`. -/
def CoverAt (input : List MemMapInput) (x : ℕ) (t : BitVec 32) : Prop :=
  ∃ r ∈ input, r.type = t ∧ 0 ≤ memMapRank t ∧
    ∃ b e, memMapRoundInput r = some (b, e) ∧ b.toNat ≤ x ∧ x < e.toNat

/-- The highest-ranked type that covers `x`. -/
def BestAt (input : List MemMapInput) (x : ℕ) (t : BitVec 32) : Prop :=
  CoverAt input x t ∧ ∀ u, CoverAt input x u → memMapRank u ≤ memMapRank t

theorem BestAt.unique {x : ℕ} (ht : BestAt input x t) (hu : BestAt input x u) : t = u := by
  obtain ⟨-, -, -, hrank, -⟩ := ht.1
  exact memMapRank_inj hrank (Int.le_antisymm (hu.2 t ht.1) (ht.2 u hu.1))

/-- No rounded input starts or ends between `p` and `q`. -/
def NoPointBetween (input : List MemMapInput) (p q : ℕ) : Prop :=
  ∀ r ∈ input, ∀ b e, memMapRoundInput r = some (b, e) →
    (b.toNat ≤ p ∨ q ≤ b.toNat) ∧ (e.toNat ≤ p ∨ q ≤ e.toNat)

/-- Then what covers one address between them covers all of them. -/
theorem NoPointBetween.coverAt_iff {p q x : ℕ}
    (h : NoPointBetween input p q) (hx : p ≤ x) (hxq : x < q) :
    CoverAt input x t ↔ CoverAt input p t := by
  constructor
  all_goals
    rintro ⟨r, hr, ht, hrank, b, e, hround, hb, he⟩
    obtain ⟨hb', he'⟩ := h r hr b e hround
    exact ⟨r, hr, ht, hrank, b, e, hround, by omega, by omega⟩

theorem NoPointBetween.bestAt_iff {p q x : ℕ}
    (h : NoPointBetween input p q) (hx : p ≤ x) (hxq : x < q) :
    BestAt input x t ↔ BestAt input p t := by
  simp only [BestAt, h.coverAt_iff hx hxq]

theorem coverAt_concat {x : ℕ} :
    CoverAt (input ++ [r]) x t ↔ CoverAt input x t ∨ r.type = t ∧ 0 ≤ memMapRank t ∧
      ∃ b e, memMapRoundInput r = some (b, e) ∧ b.toNat ≤ x ∧ x < e.toNat := by
  simp only [CoverAt, mem_append, mem_singleton, or_and_right, exists_or, exists_eq_left]

/-- What the loop over the inputs has found for the interval from `p` to `q`. -/
def BestFound (input : List MemMapInput) (p : BitVec 64) (best : ℤ × BitVec 32) : Prop :=
  best.1 = -1 ∧ (∀ t, ¬ CoverAt input p.toNat t) ∨
    0 ≤ best.1 ∧ best.1 = memMapRank best.2 ∧ BestAt input p.toNat best.2

theorem bestCover_concat (p q : BitVec 64) : bestCover (input ++ [r]) p q =
      match memMapRoundInput r with
      | none => bestCover input p q
      | some (b, e) =>
        if b ≤ p ∧ q ≤ e ∧ memMapRank r.type > (bestCover input p q).1 then
          (memMapRank r.type, r.type)
        else bestCover input p q := by
  rw [bestCover, foldl_append]
  rfl

/-- An input that covers nothing changes nothing. -/
theorem BestFound.concat_skip (h : BestFound input p best)
    (hskip : ∀ b e, memMapRoundInput r = some (b, e) → b.toNat ≤ p.toNat → p.toNat < e.toNat →
      memMapRank r.type ≤ best.1) : BestFound (input ++ [r]) p best := by
  rcases h with ⟨hrank, hnone⟩ | ⟨hrank, heq, hbest, hmax⟩
  · refine .inl ⟨hrank, fun t ht => ?_⟩
    rcases coverAt_concat.1 ht with ht | ⟨rfl, hpos, b, e, hround, hb, he⟩
    · exact hnone t ht
    · have := hskip b e hround hb he
      omega
  · refine .inr ⟨hrank, heq, coverAt_concat.2 (.inl hbest), fun t ht => ?_⟩
    rcases coverAt_concat.1 ht with ht | ⟨rfl, hpos, b, e, hround, hb, he⟩
    · exact hmax t ht
    · exact heq ▸ hskip b e hround hb he

/-- An input of a higher rank takes over. -/
theorem BestFound.concat_take (h : BestFound input p best) {b e : BitVec 64}
    (hround : memMapRoundInput r = some (b, e)) (hb : b.toNat ≤ p.toNat) (he : p.toNat < e.toNat)
    (hrank : best.1 < memMapRank r.type) :
    BestFound (input ++ [r]) p (memMapRank r.type, r.type) := by
  have hpos : 0 ≤ memMapRank r.type := by
    rcases h with ⟨hneg, -⟩ | ⟨hpos, -⟩ <;> omega
  refine .inr ⟨hpos, rfl, coverAt_concat.2 (.inr ⟨rfl, hpos, b, e, hround, hb, he⟩), fun t ht => ?_⟩
  rcases coverAt_concat.1 ht with ht | ⟨rfl, -⟩
  · rcases h with ⟨-, hnone⟩ | ⟨-, heq, -, hmax⟩
    · exact absurd ht (hnone t)
    · exact Int.le_trans (hmax t ht) (heq ▸ Int.le_of_lt hrank)
  · exact Int.le_refl _

theorem bestCover_spec {q : BitVec 64} (hpq : p.toNat < q.toNat)
    (h : NoPointBetween input p.toNat q.toNat) : BestFound input p (bestCover input p q) := by
  induction input using List.reverseRecOn with
  | nil => exact .inl ⟨rfl, fun t ⟨r, hr, _⟩ => absurd hr not_mem_nil⟩
  | append_singleton input r ih =>
    have hfound := ih fun r' hr' => h r' (mem_append_left _ hr')
    have hr := h r (mem_append_right _ (mem_singleton_self r))
    rw [bestCover_concat]
    cases hround : memMapRoundInput r with
    | none => exact hfound.concat_skip fun b e hsome => by rw [hround] at hsome; cases hsome
    | some range =>
      obtain ⟨b, e⟩ := range
      obtain ⟨hb, he⟩ := hr b e hround
      dsimp only
      split_ifs with hcover
      · rw [BitVec.le_def, BitVec.le_def] at hcover
        exact hfound.concat_take hround hcover.1 (by omega) hcover.2.2
      · refine hfound.concat_skip fun b' e' hsome hb' he' => ?_
        obtain ⟨rfl, rfl⟩ : b = b' ∧ e = e' := by
          rw [hround] at hsome
          simpa using hsome
        by_contra hgt
        refine hcover ⟨BitVec.le_def.2 hb', BitVec.le_def.2 (by omega), by omega⟩

/-! ## Without a capacity -/

variable (input : List MemMapInput)

/-- The regions, if there is room for all of them. -/
def sweepAll : List (BitVec 64) → List BootMemRegion → List BootMemRegion
  | segStart :: segEnd :: points, out =>
    let (bestRank, bestType) := bestCover input segStart segEnd
    if bestRank < 0 then sweepAll (segEnd :: points) out
    else
      match touchingLast out segStart bestType with
      | some last =>
        sweepAll (segEnd :: points)
          (out.dropLast ++ [{ last with length := last.length + (segEnd - segStart) }])
      | none =>
        sweepAll (segEnd :: points) (out ++ [⟨segStart, segEnd - segStart, bestType, 0⟩])
  | _, out => out

theorem sweepAll_cons_cons (p q : BitVec 64) : sweepAll input (p :: q :: points) out =
      if (bestCover input p q).1 < 0 then sweepAll input (q :: points) out
      else
        match touchingLast out p (bestCover input p q).2 with
        | some last =>
          sweepAll input (q :: points)
            (out.dropLast ++ [{ last with length := last.length + (q - p) }])
        | none =>
          sweepAll input (q :: points) (out ++ [⟨p, q - p, (bestCover input p q).2, 0⟩]) := by
  rw [sweepAll]

theorem eq_of_touchingLast {last : BootMemRegion} (h : touchingLast out p t = some last) :
    out = out.dropLast ++ [last] ∧ last.type = t ∧ last.base + last.length = p := by
  rw [touchingLast, Option.filter_eq_some_iff] at h
  obtain ⟨hlast, htouch⟩ := h
  obtain ⟨front, rfl⟩ := getLast?_eq_some_iff.1 hlast
  exact ⟨by rw [dropLast_concat], by simpa using htouch⟩

/-- Only the last region can still change. -/
theorem sweepAll_prefix (points : List (BitVec 64))
    (front : List BootMemRegion) (last : BootMemRegion) :
    ∃ back, back ≠ [] ∧ sweepAll input points (front ++ [last]) = front ++ back := by
  induction points generalizing front last with
  | nil => exact ⟨[last], cons_ne_nil _ _, rfl⟩
  | cons p points ih =>
    cases points with
    | nil => exact ⟨[last], cons_ne_nil _ _, rfl⟩
    | cons q points =>
      rw [sweepAll_cons_cons]
      split_ifs with hneg
      · exact ih front last
      · split
        · rw [dropLast_concat]
          exact ih front _
        · obtain ⟨back, -, hback⟩ := ih (front ++ [last]) ⟨p, q - p, (bestCover input p q).2, 0⟩
          refine ⟨last :: back, cons_ne_nil _ _, ?_⟩
          rw [hback, append_assoc, singleton_append]

/-- With a capacity, the sweep stops in front of the first region that has no room. -/
theorem sweepPoints_eq (outCap : ℕ)
    (h : out.length ≤ outCap) : sweepPoints input outCap points out =
      if (sweepAll input points out).length ≤ outCap then (.ok, sweepAll input points out)
      else (.errMemmapCapacity, (sweepAll input points out).take outCap) := by
  induction points generalizing out with
  | nil => rw [sweepPoints, sweepAll, if_pos h] <;> simp
  | cons p points ih =>
    cases points with
    | nil => rw [sweepPoints, sweepAll, if_pos h] <;> simp
    | cons q points =>
      rw [sweepAll_cons_cons, sweepPoints]
      dsimp only
      by_cases hneg : (bestCover input p q).1 < 0
      · rw [if_pos hneg, if_pos hneg]
        exact ih h
      · rw [if_neg hneg, if_neg hneg]
        cases htouch : touchingLast out p (bestCover input p q).2 with
        | some last =>
          refine ih ?_
          have hlen := congrArg List.length (eq_of_touchingLast htouch).1
          rw [length_append, length_singleton] at hlen ⊢
          omega
        | none =>
          by_cases hfull : out.length ≥ outCap
          · -- What has been written is the front of what there would be.
            obtain ⟨back, hback, hall⟩ :=
              sweepAll_prefix input (q :: points) out ⟨p, q - p, (bestCover input p q).2, 0⟩
            have hpos := length_pos_iff.2 hback
            have hcap : outCap = out.length := by omega
            rw [if_pos hfull, hall, if_neg (by rw [length_append]; omega), hcap, take_left]
          · rw [if_neg hfull]
            refine ih ?_
            rw [length_append, length_singleton]
            omega

/-! ## The regions as runs -/

/-- A region as a run of addresses. -/
def toRun (r : BootMemRegion) : LabelledRun (BitVec 32) :=
  ⟨r.base.toNat, r.base.toNat + r.length.toNat, r.type⟩

/-- What the sweep keeps: the regions written are in order, end at the current point at the latest,
and label every address before it with its best type. -/
structure SweepOk (p : ℕ) (out : List BootMemRegion) : Prop where
  canonical : Canonical (out.map toRun)
  region : ∀ r ∈ out, RegionOk r
  le : ∀ r ∈ out, r.base.toNat + r.length.toNat ≤ p
  labels : ∀ x t, LabelAt (out.map toRun) x t ↔ x < p ∧ BestAt input x t

section Step

variable {input : List MemMapInput} {p q : BitVec 64} {out : List BootMemRegion}

section

variable (h : SweepOk input p.toNat out) (hpq : p.toNat < q.toNat)
  (hno : NoPointBetween input p.toNat q.toNat)

include h hpq hno

/-- The labels up to the next point: those so far, and the best type from here on. -/
theorem SweepOk.labels_next (x : ℕ) : x < q.toNat ∧ BestAt input x t ↔ LabelAt (out.map toRun) x t ∨
      p.toNat ≤ x ∧ x < q.toNat ∧ BestAt input p.toNat t := by
  rw [h.labels]
  constructor
  · rintro ⟨hx, hbest⟩
    rcases Nat.lt_or_ge x p.toNat with hlt | hge
    · exact .inl ⟨hlt, hbest⟩
    · exact .inr ⟨hge, hx, (hno.bestAt_iff hge hx).1 hbest⟩
  · rintro (⟨hlt, hbest⟩ | ⟨hge, hx, hbest⟩)
    · exact ⟨by omega, hbest⟩
    · exact ⟨hx, (hno.bestAt_iff hge hx).2 hbest⟩

/-- Nothing covers the interval. -/
theorem SweepOk.skip (hnone : ∀ t, ¬ CoverAt input p.toNat t) : SweepOk input q.toNat out := by
  refine ⟨h.canonical, h.region, fun r hr => Nat.le_trans (h.le r hr) (Nat.le_of_lt hpq),
    fun x t => ?_⟩
  rw [h.labels_next hpq hno]
  exact ⟨.inl, fun hx => hx.elim id fun hbest => absurd hbest.2.2.1 (hnone t)⟩

end

/-- The interval continues the last region. -/
theorem SweepOk.extend {front : List BootMemRegion} {last : BootMemRegion}
    (h : SweepOk input p.toNat (front ++ [last])) (hpq : p.toNat < q.toNat)
    (hno : NoPointBetween input p.toNat q.toNat) (hpage : 4096 ∣ p.toNat) (hpage' : 4096 ∣ q.toNat)
    (htouch : last.base + last.length = p) (hbest : BestAt input p.toNat last.type) :
    SweepOk input q.toNat (front ++ [{ last with length := last.length + (q - p) }]) := by
  have hlast : RegionOk last := h.region last (by simp)
  have hend : last.base.toNat + last.length.toNat = p.toNat := by rw [← hlast.toNat_end, htouch]
  have hlen : (last.length + (q - p)).toNat = last.length.toNat + (q.toNat - p.toNat) := by
    rw [BitVec.toNat_add, BitVec.toNat_sub]
    omega
  have hcanon := h.canonical
  rw [map_append, map_singleton] at hcanon
  have hrun : toRun { last with length := last.length + (q - p) } =
      ⟨last.base.toNat, q.toNat, last.type⟩ := by
    rw [toRun, hlen]
    rw [show last.base.toNat + (last.length.toNat + (q.toNat - p.toNat)) = q.toNat by omega]
  refine ⟨?_, fun r hr => ?_, fun r hr => ?_, fun x t => ?_⟩
  · rw [map_append, map_singleton, hrun]
    exact hcanon.extend (by omega)
  · rcases mem_append.1 hr with hr | hr
    · exact h.region r (mem_append_left _ hr)
    · obtain rfl := mem_singleton.1 hr
      have h2 := hlast.length_dvd
      exact ⟨by dsimp only; omega, hlast.base_dvd, by dsimp only; omega, by dsimp only; omega,
        hlast.type_ge, hlast.type_le, hlast.reserved_eq⟩
  · rcases mem_append.1 hr with hr | hr
    · exact Nat.le_trans (h.le r (mem_append_left _ hr)) (Nat.le_of_lt hpq)
    · obtain rfl := mem_singleton.1 hr
      dsimp only
      omega
  · rw [h.labels_next hpq hno, map_append, map_append, map_singleton,
      map_singleton, hrun, labelAt_concat, labelAt_concat]
    have hlastRun : toRun last = ⟨last.base.toNat, p.toNat, last.type⟩ := by rw [toRun, hend]
    rw [hlastRun]
    dsimp only
    constructor
    · rintro (hx | ⟨hlo, hhi, rfl⟩)
      · exact .inl (.inl hx)
      · rcases Nat.lt_or_ge x p.toNat with hlt | hge
        · exact .inl (.inr ⟨hlo, hlt, rfl⟩)
        · exact .inr ⟨hge, hhi, hbest⟩
    · rintro ((hx | ⟨hlo, hhi, rfl⟩) | ⟨hge, hhi, hbest'⟩)
      · exact .inl hx
      · exact .inr ⟨hlo, by omega, rfl⟩
      · exact .inr ⟨by omega, hhi, hbest.unique hbest'⟩

/-- The interval is a new region. -/
theorem SweepOk.concat (h : SweepOk input p.toNat out) (hpq : p.toNat < q.toNat)
    (hno : NoPointBetween input p.toNat q.toNat) (hpage : 4096 ∣ p.toNat) (hpage' : 4096 ∣ q.toNat)
    {t : BitVec 32} (hbest : BestAt input p.toNat t) (htouch : touchingLast out p t = none) :
    SweepOk input q.toNat (out ++ [⟨p, q - p, t, 0⟩]) := by
  have hlen : (q - p).toNat = q.toNat - p.toNat := by
    rw [BitVec.toNat_sub]
    omega
  have hrun : toRun ⟨p, q - p, t, 0⟩ = ⟨p.toNat, q.toNat, t⟩ := by
    rw [toRun, hlen]
    rw [show p.toNat + (q.toNat - p.toNat) = q.toNat by omega]
  refine ⟨?_, fun r hr => ?_, fun r hr => ?_, fun x u => ?_⟩
  · rw [map_append, map_singleton, hrun]
    refine h.canonical.concat hpq (fun s hs => ?_) fun s hs hend hlabel => ?_
    · obtain ⟨r, hr, rfl⟩ := mem_map.1 hs
      exact h.le r hr
    · -- The last region would have been extended.
      rw [getLast?_map, Option.mem_def, Option.map_eq_some_iff] at hs
      obtain ⟨last, hlast, rfl⟩ := hs
      have hok := h.region last (mem_of_getLast? hlast)
      have htouches : last.type = t ∧ last.base + last.length = p :=
        ⟨hlabel, BitVec.eq_of_toNat_eq (hok.toNat_end.trans hend)⟩
      rw [touchingLast, hlast, Option.filter_some, if_pos (decide_eq_true htouches)] at htouch
      cases htouch
  · rcases mem_append.1 hr with hr | hr
    · exact h.region r hr
    · obtain rfl := mem_singleton.1 hr
      obtain ⟨-, -, -, hrank, -⟩ := hbest.1
      obtain ⟨hge, hle⟩ := memMapRank_nonneg hrank
      exact ⟨by dsimp only; omega, hpage, by dsimp only; omega, by dsimp only; omega, hge, hle, rfl⟩
  · rcases mem_append.1 hr with hr | hr
    · exact Nat.le_trans (h.le r hr) (Nat.le_of_lt hpq)
    · obtain rfl := mem_singleton.1 hr
      dsimp only
      omega
  · rw [h.labels_next hpq hno, map_append, map_singleton, hrun, labelAt_concat]
    constructor
    · rintro (hx | ⟨hlo, hhi, rfl⟩)
      · exact .inl hx
      · exact .inr ⟨hlo, hhi, hbest⟩
    · rintro (hx | ⟨hge, hhi, hbest'⟩)
      · exact .inl hx
      · exact .inr ⟨hge, hhi, hbest.unique hbest'⟩

end Step

/-- The whole sweep, from the first point to the last. -/
theorem sweepAll_spec {input : List MemMapInput} {p : BitVec 64} {points : List (BitVec 64)}
    {out : List BootMemRegion} (hsorted : (p :: points).Pairwise (· < ·))
    (hpage : ∀ q ∈ p :: points, 4096 ∣ q.toNat)
    (hbound : ∀ r ∈ input, ∀ b e, memMapRoundInput r = some (b, e) →
      (b ≤ p ∨ b ∈ points) ∧ (e ≤ p ∨ e ∈ points))
    (h : SweepOk input p.toNat out) :
    SweepOk input ((p :: points).getLast (cons_ne_nil p points)).toNat
      (sweepAll input (p :: points) out) := by
  induction points generalizing p out with
  | nil => exact h
  | cons q points ih =>
    obtain ⟨hp, htail⟩ := pairwise_cons.1 hsorted
    have hpq : p.toNat < q.toNat := hp q (mem_cons_self ..)
    have hpp := hpage p (mem_cons_self ..)
    have hpq' := hpage q (by simp)
    -- Every other end point is at `q` or behind it.
    have hafter : ∀ b : BitVec 64, b ≤ p ∨ b ∈ q :: points → b.toNat ≤ p.toNat ∨
        q.toNat ≤ b.toNat := by
      rintro b (hle | hmem)
      · exact .inl hle
      · rcases mem_cons.1 hmem with rfl | hmem
        · exact .inr (Nat.le_refl _)
        · exact .inr (Nat.le_of_lt ((pairwise_cons.1 htail).1 b hmem))
    have hno : NoPointBetween input p.toNat q.toNat := fun r hr b e hround =>
      ⟨hafter b (hbound r hr b e hround).1, hafter e (hbound r hr b e hround).2⟩
    have hnext : ∀ b : BitVec 64, b ≤ p ∨ b ∈ q :: points → b ≤ q ∨ b ∈ points := by
      rintro b (hle | hmem)
      · exact .inl (BitVec.le_trans hle (BitVec.le_of_lt (hp q (mem_cons_self ..))))
      · rcases mem_cons.1 hmem with rfl | hmem
        · exact .inl (BitVec.le_refl _)
        · exact .inr hmem
    have hrest : ∀ {out'}, SweepOk input q.toNat out' →
        SweepOk input ((q :: points).getLast (cons_ne_nil q points)).toNat
          (sweepAll input (q :: points) out') :=
      ih htail (fun b hb => hpage b (mem_cons_of_mem p hb)) fun r hr b e hround =>
        ⟨hnext b (hbound r hr b e hround).1, hnext e (hbound r hr b e hround).2⟩
    rw [getLast_cons (cons_ne_nil q points), sweepAll_cons_cons]
    rcases bestCover_spec hpq hno with ⟨hneg, hnone⟩ | ⟨hpos, -, hbest⟩
    · rw [if_pos (by omega)]
      exact hrest (h.skip hpq hno hnone)
    · rw [if_neg (by omega)]
      cases htouch : touchingLast out p (bestCover input p q).2 with
      | some last =>
        obtain ⟨hout, htype, hend⟩ := eq_of_touchingLast htouch
        rw [hout] at h
        exact hrest (h.extend hpq hno hpp hpq' hend (htype ▸ hbest))
      | none => exact hrest (h.concat hpq hno hpp hpq' hbest htouch)

end Bongos.Boot
