import Bongos.Arch.PagingBuildSlots

/-!
# The direct map that the regions give

Each region of the boot memory map is mapped in pieces, and every page of a piece gets a leaf in the
direct map (`piece_spec`). The regions are sorted and disjoint, so no piece meets the leaf of
another one, and after the loop over the regions the direct map has a leaf for exactly the pages of
the regions that it covers (`directMap_run`).
-/

namespace Bongos.Arch

open Bongos.Core Mm FallibleLoop List

variable {s s' s'' : Paging} {alloc : TableAnswers} {env : BuildEnv} {a b c p : ℕ} {F : ℕ → ℕ}
  {r : BootMemRegion} {regions : List BootMemRegion}

/-! ## Pages of the direct map -/

/-- The page of the direct map for a physical page. -/
def hhdmPage (p : ℕ) : ℕ := 2^52 - 2^35 + p

/-- How many pages the direct map has. -/
def HHDM_PAGES : ℕ := 2^34

theorem hhdmPage_mul : hhdmPage p * X86_PTE_SIZE_4K = BOOTINFO_HHDM_BASE + p * X86_PTE_SIZE_4K := by
  rw [hhdmPage, Nat.add_mul]
  rfl

theorem hhdmPage_inj : hhdmPage a = hhdmPage b ↔ a = b := Nat.add_left_cancel_iff

theorem builtPage_hhdmPage (hp : p < HHDM_PAGES) : BuiltPage (hhdmPage p) := by
  rw [HHDM_PAGES] at hp
  have hslot : slot 0 (hhdmPage p) = (2^52 - 2^35 + p) / 2^27 % 512 := rfl
  have hstart : ARCH_PML4_PAGE_ARRAY_START = 448 := rfl
  refine ⟨⟨Nat.le_add_right _ _, ?_⟩, fun h => ?_⟩
  · rw [hhdmPage]
    omega
  · omega

/-! ## Pieces -/

/-- The physical pages from `a` up to `b` in the direct map, with the flags `F`. -/
def Piece (a b : ℕ) (F : ℕ → ℕ) (m p f : ℕ) : Prop := m = hhdmPage p ∧ (a ≤ p ∧ p < b) ∧ f = F p

/-- The physical pages from `a` up to `b` have no leaf in the direct map. -/
def PieceFree (a b : ℕ) (s : Paging) : Prop := ∀ p, a ≤ p → p < b → s.pageLeaf (hhdmPage p) = none

theorem not_piece_of_le (hab : b ≤ a) (m p f : ℕ) : ¬ Piece a b F m p f := by
  rintro ⟨-, h, -⟩
  omega

theorem Mapped.trans_piece (hab : a ≤ b) (hbc : b ≤ c) (hc : c ≤ HHDM_PAGES)
    (h : Mapped env (Piece a b F) s s') (h' : Mapped env (Piece b c F) s' s'') :
    Mapped env (Piece a c F) s s'' := by
  refine (h.trans h' ?_).congr fun m p f => ?_
  · rintro _ p _ ⟨rfl, hp, -⟩
    refine ⟨builtPage_hhdmPage (by omega), ?_⟩
    rintro q _ ⟨heq, hq, -⟩
    rw [hhdmPage_inj] at heq
    omega
  · unfold Piece
    rw [← and_or_left, ← or_and_right]
    refine and_congr_right fun _ => and_congr_left fun _ => ?_
    omega

/-- What a piece leaves free is still free after it. -/
theorem Mapped.free_piece (hab : a ≤ b) (hc : c ≤ HHDM_PAGES) (h : Mapped env (Piece a b F) s s')
    (hfree : PieceFree a c s) : PieceFree b c s' := by
  intro p hp hpc
  refine (h.old _ (builtPage_hhdmPage (by omega)) ?_).trans (hfree p (by omega) hpc)
  rintro q _ ⟨heq, hq, -⟩
  rw [hhdmPage_inj] at heq
  omega

/-- A piece that is mapped when it is not empty. -/
theorem piece_spec (env : BuildEnv) (ha : FreshTables alloc) (v : BuildInv s) {f : ℕ}
    (hf : LeafFlags f) (hab : a ≤ b) (hb : b ≤ HHDM_PAGES) (hfree : PieceFree a b s)
    (hF : ∀ p, a ≤ p → p < b → F p = f) (large : Bool) :
    Outcome (MemoryPanic alloc) (Mapped env (Piece a b F) s)
      (if a * X86_PTE_SIZE_4K < b * X86_PTE_SIZE_4K then
        buildMapRange env alloc (BOOTINFO_HHDM_BASE + a * X86_PTE_SIZE_4K) (a * X86_PTE_SIZE_4K)
          (b * X86_PTE_SIZE_4K - a * X86_PTE_SIZE_4K) f large s
        else .ok s) := by
  have hadd : ∀ i, hhdmPage (a + i) = hhdmPage a + i := fun i => (Nat.add_assoc _ _ _).symm
  split
  next =>
    rw [← hhdmPage_mul, ← Nat.sub_mul]
    have hrange : RangeFree (hhdmPage a) (b - a) s := by
      intro i hi
      rw [← hadd]
      exact ⟨builtPage_hhdmPage (by omega), hfree _ (by omega) (by omega)⟩
    refine (buildMapRange_spec hf hrange ha v).mono fun s' h => h.congr fun m p g => ⟨?_, ?_⟩
    · rintro ⟨i, hi, rfl, rfl, rfl⟩
      exact ⟨(hadd i).symm, by omega, (hF _ (by omega) (by omega)).symm⟩
    · rintro ⟨rfl, ⟨h1, h2⟩, rfl⟩
      obtain ⟨i, rfl⟩ := Nat.exists_eq_add_of_le h1
      exact ⟨i, by omega, hadd i, rfl, hF _ h1 h2⟩
  next h =>
    refine Mapped.empty v (not_piece_of_le (Nat.le_of_not_lt fun hlt => h ?_))
    exact Nat.mul_lt_mul_of_pos_right hlt (by decide)

/-! ## Regions -/

/-- The first page of a region. -/
def regionStart (r : BootMemRegion) : ℕ := r.base.toNat / X86_PTE_SIZE_4K

/-- The end of the pages of a region that the direct map can hold. -/
def regionEnd (r : BootMemRegion) : ℕ :=
  min ((r.base.toNat + r.length.toNat) / X86_PTE_SIZE_4K) HHDM_PAGES

/-- The flags of a read-only part of the direct map. -/
def RO_FLAGS : ℕ := X86_PTE_P ||| X86_PTE_NX ||| X86_PTE_G

/-- The flags that the direct map gives a page of a region of a type. -/
def directFlags (env : BuildEnv) (type : BitVec 32) (p : ℕ) : ℕ :=
  if type = BOOT_MEM_KERNEL then
    if env.kernelPhysBase ≤ p * X86_PTE_SIZE_4K ∧ p * X86_PTE_SIZE_4K < env.roPhysEnd then RO_FLAGS
    else HHDM_FLAGS
  else HHDM_FLAGS ||| (if type = BOOT_MEM_FRAMEBUFFER then X86_PTE_PWT else 0)

theorem leafFlags_ro : LeafFlags RO_FLAGS := ⟨by decide, by decide⟩

theorem leafFlags_hhdm : LeafFlags HHDM_FLAGS := ⟨by decide, by decide⟩

theorem leafFlags_region (type : BitVec 32) :
    LeafFlags (HHDM_FLAGS ||| (if type = BOOT_MEM_FRAMEBUFFER then X86_PTE_PWT else 0)) := by
  split_ifs <;> exact ⟨by decide, by decide⟩

/-- Where the linker and the loader have put the read-only part: at whole pages, in order. -/
structure RoAligned (env : BuildEnv) (lo hi : ℕ) : Prop where
  start : env.kernelPhysBase = lo * X86_PTE_SIZE_4K
  stop : env.roPhysEnd = hi * X86_PTE_SIZE_4K
  le : lo ≤ hi

/-- The source's clamp of `x` into a range. -/
def clamp (x a b : ℕ) : ℕ := if x < a then a else if x > b then b else x

theorem clamp_mul {z : ℕ} (hz : 0 < z) (x a b : ℕ) :
    (if x * z < a * z then a * z else if x * z > b * z then b * z else x * z) =
      clamp x a b * z := by
  simp only [clamp, gt_iff_lt, Nat.mul_lt_mul_right hz]
  split_ifs <;> rfl

theorem clamp_spec {x : ℕ} (hab : a ≤ b) :
    a ≤ clamp x a b ∧ clamp x a b ≤ b ∧ ∀ p, a ≤ p → p < b → (p < clamp x a b ↔ p < x) := by
  unfold clamp
  split_ifs <;> refine ⟨by omega, by omega, fun p h1 h2 => by omega⟩

/-- The three pieces of a `KERNEL` region. -/
theorem buildKernelRegion_spec (ha : FreshTables alloc) (v : BuildInv s) {lo hi : ℕ}
    (hro : RoAligned env lo hi) (hab : a ≤ b) (hb : b ≤ HHDM_PAGES) (hfree : PieceFree a b s) :
    Outcome (MemoryPanic alloc) (Mapped env (Piece a b (directFlags env BOOT_MEM_KERNEL)) s)
      (buildKernelRegion env alloc (a * X86_PTE_SIZE_4K) (b * X86_PTE_SIZE_4K) s) := by
  have h4k : 0 < X86_PTE_SIZE_4K := by decide
  obtain ⟨hau, hub, hlo⟩ := clamp_spec hab
  set u := clamp lo a b with hu
  obtain ⟨huw, hwb, hhi⟩ := clamp_spec hub
  set w := clamp hi u b with hw
  have hflags : ∀ p, directFlags env BOOT_MEM_KERNEL p =
      if lo ≤ p ∧ p < hi then RO_FLAGS else HHDM_FLAGS := fun p => by
    rw [directFlags, if_pos rfl, hro.start, hro.stop]
    simp only [Nat.mul_le_mul_right_iff h4k, Nat.mul_lt_mul_right h4k]
  -- The read-only part of the region is the part of the image that lies in it.
  have hbefore : ∀ p, a ≤ p → p < u → directFlags env BOOT_MEM_KERNEL p = HHDM_FLAGS :=
    fun p h1 h2 => by
    rw [hflags, if_neg]
    have := (hlo p h1 (by omega)).1 h2
    omega
  have hinside : ∀ p, u ≤ p → p < w → directFlags env BOOT_MEM_KERNEL p = RO_FLAGS :=
    fun p h1 h2 => by
    rw [hflags, if_pos]
    have h3 := (hlo p (by omega) (by omega)).not.1 (by omega)
    exact ⟨by omega, (hhi p h1 (by omega)).1 h2⟩
  have hafter : ∀ p, w ≤ p → p < b → directFlags env BOOT_MEM_KERNEL p = HHDM_FLAGS :=
    fun p h1 h2 => by
    rw [hflags, if_neg]
    have := (hhi p (by omega) h2).not.1 (by omega)
    omega
  rw [buildKernelRegion]
  simp only [hro.start, hro.stop, clamp_mul h4k, ← hu, ← hw]
  refine (piece_spec env ha v leafFlags_hhdm hau (by omega)
    (fun p h1 h2 => hfree p h1 (by omega)) hbefore true).ite_bind fun s1 h1 => ?_
  have hfree1 := h1.free_piece hau hb hfree
  refine (piece_spec env ha h1.inv leafFlags_ro huw (by omega)
    (fun p h1 h2 => hfree1 p h1 (by omega)) hinside false).ite_bind fun s2 h2 => ?_
  have hfree2 := h2.free_piece huw hb hfree1
  refine (piece_spec env ha h2.inv leafFlags_hhdm hwb hb hfree2 hafter true).mono fun s3 h3 => ?_
  exact (h1.trans_piece hau huw (by omega) h2).trans_piece (by omega) hwb hb h3

/-- The pages of an accepted region. -/
theorem region_pages (h : RegionOk r) : r.base.toNat = regionStart r * X86_PTE_SIZE_4K ∧
    r.base.toNat + r.length.toNat =
      (r.base.toNat + r.length.toNat) / X86_PTE_SIZE_4K * X86_PTE_SIZE_4K := by
  have hb := h.base_dvd
  have hl := h.length_dvd
  rw [regionStart, size_4k]
  omega

/-- The pages of a region that the direct map is to have, if it has the type. -/
def Direct (env : BuildEnv) (r : BootMemRegion) (m p f : ℕ) : Prop :=
  hhdmMapsType r.type = true ∧ Piece (regionStart r) (regionEnd r) (directFlags env r.type) m p f

/-- The effect of one region: the pages that the direct map can hold are mapped if its type is. -/
theorem buildRegion_spec (ha : FreshTables alloc) (v : BuildInv s) {lo hi : ℕ}
    (hro : RoAligned env lo hi) (hr : RegionOk r)
    (hfree : ∀ m p f, Direct env r m p f → s.pageLeaf m = none) :
    Outcome (MemoryPanic alloc) (Mapped env (Direct env r) s) (buildRegion env alloc s r) := by
  have h4k : 0 < X86_PTE_SIZE_4K := by decide
  have hsize : BOOTINFO_HHDM_SIZE = HHDM_PAGES * X86_PTE_SIZE_4K := by decide
  rw [buildRegion]
  cases htype : hhdmMapsType r.type with
  | false => exact Mapped.empty v fun m p f h => Bool.false_ne_true (htype.symm.trans h.1)
  | true =>
    have hdirect : Direct env r = Piece (regionStart r) (regionEnd r) (directFlags env r.type) := by
      funext m p f
      exact propext (and_iff_right htype)
    have hfree : PieceFree (regionStart r) (regionEnd r) s := fun p h1 h2 =>
      hfree _ p _ ⟨htype, rfl, ⟨h1, h2⟩, rfl⟩
    obtain ⟨hbase, hstop⟩ := region_pages hr
    have hend : (if (r.base + r.length).toNat > BOOTINFO_HHDM_SIZE then BOOTINFO_HHDM_SIZE
        else (r.base + r.length).toNat) = regionEnd r * X86_PTE_SIZE_4K := by
      rw [hr.toNat_end, hsize, regionEnd, hstop, Nat.mul_div_cancel _ h4k]
      simp only [gt_iff_lt, Nat.mul_lt_mul_right h4k, min_def]
      split_ifs with h1 h2 h2
      · omega
      · rfl
      · rfl
      · omega
    have hle : regionEnd r ≤ HHDM_PAGES := min_le_right _ _
    have hF : ∀ p, r.type ≠ BOOT_MEM_KERNEL → directFlags env r.type p =
        HHDM_FLAGS ||| (if r.type = BOOT_MEM_FRAMEBUFFER then X86_PTE_PWT else 0) :=
      fun p h => if_neg h
    simp only [Bool.not_true, Bool.false_eq_true, if_false, hend, hdirect]
    split
    next hhigh =>
      -- The region starts above the direct map.
      refine Mapped.empty v (not_piece_of_le ?_)
      rw [hbase, hsize] at hhigh
      exact hle.trans (Nat.le_of_mul_le_mul_right hhigh h4k)
    next =>
      rw [hbase]
      split
      next hempty => exact Mapped.empty v (not_piece_of_le (Nat.le_of_mul_le_mul_right hempty h4k))
      next hne =>
        have hab : regionStart r ≤ regionEnd r :=
          Nat.le_of_mul_le_mul_right (Nat.le_of_not_le hne) h4k
        split
        next hkernel =>
          rw [hkernel]
          exact buildKernelRegion_spec ha v hro hab hle hfree
        next hkernel =>
          have hpiece := piece_spec env ha v (leafFlags_region r.type) hab hle hfree
            (fun p _ _ => hF p hkernel) (!decide (r.type = BOOT_MEM_FRAMEBUFFER))
          rwa [if_pos (Nat.lt_of_not_le hne)] at hpiece

/-! ## The loop over the regions -/

/-- Nothing of a region reaches the next one. -/
theorem regionEnd_le_regionStart {r' : BootMemRegion} (h : RegionBefore r r') :
    regionEnd r ≤ regionStart r' := (min_le_left _ _).trans (Nat.div_le_div_right h)

theorem regionEnd_le : regionEnd r ≤ HHDM_PAGES := min_le_right _ _

/-- The loop over the regions of an accepted map, on tables without a leaf. -/
theorem directMap_run {lo hi : ℕ} (ha : FreshTables alloc) (hro : RoAligned env lo hi)
    (hmap : MemMapOk regions) (v : BuildInv s) (hempty : ∀ n, BuiltPage n → s.pageLeaf n = none) :
    Outcome (MemoryPanic alloc) (Mapped env (fun m p f => ∃ r ∈ regions, Direct env r m p f) s)
      (regions.foldlM (buildRegion env alloc) s) := by
  refine Mapped.loop v ?_ (hmap.sorted.imp ?_) fun r hr s v hfree =>
    buildRegion_spec ha v hro (hmap.region r hr) hfree
  · rintro r - _ p _ ⟨-, rfl, hp, -⟩
    have hb := builtPage_hhdmPage (hp.2.trans_le regionEnd_le)
    exact ⟨hb, hempty _ hb⟩
  · rintro r r' hbefore _ p _ q _ ⟨-, rfl, hp, -⟩ ⟨-, heq, hq, -⟩
    have := regionEnd_le_regionStart hbefore
    rw [hhdmPage_inj] at heq
    omega

end Bongos.Arch
