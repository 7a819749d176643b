import Bongos.Arch.DirectMap
import Bongos.Boot.Elf
import Mathlib.Data.Nat.Digits.Lemmas

/-!
# The direct map at boot

After `archPagingBuildKernel` the direct map is exact (`archPagingBuildKernel_directMap`): it
translates an address to itself exactly when a region of a covered type has it, and the leaves have
the protection and the cache type that the region asks for. The parts of the image go to another
slot of the root table, so they change no leaf of the direct map (`segments_run`). The call ends in
a panic only when the loader has not set up what the kernel relies on, or when there is no memory
for a table: never in a conflict.
-/

namespace Bongos.Arch

open Boot Bongos.Core Mm RadixTable FallibleLoop List

variable {s s' s₀ : Paging} {alloc : TableAnswers} {env : BuildEnv} {n m k t o : ℕ}
  {map : List BootMemRegion}

/-! ## Walks to a leaf -/

/-- What a walk meets at a level: nothing, a leaf, or the next table. -/
theorem level_cases (hk : k < 3) (ht : s.walk (path k n) = some t) :
    (s.mem t (slot k n) &&& X86_PTE_P = 0 ∧ s.levelLeaf k n = none ∧
      s.walk (path (k + 1) n) = none) ∨
    (s.mem t (slot k n) &&& X86_PTE_P ≠ 0 ∧ s.mem t (slot k n) &&& X86_PTE_PS ≠ 0 ∧
      s.levelLeaf k n = some (s.mem t (slot k n))) ∨
    (s.mem t (slot k n) &&& X86_PTE_P ≠ 0 ∧ s.mem t (slot k n) &&& X86_PTE_PS = 0 ∧
      s.levelLeaf k n = none ∧ s.walk (path (k + 1) n) = some (tableAt (s.mem t (slot k n)))) := by
  rw [walk_path_succ (by omega) ht, levelLeaf_eq ht]
  by_cases hp : s.mem t (slot k n) &&& X86_PTE_P = 0
  · exact .inl ⟨hp, if_neg fun h => h.1 hp, link_of_absent hp⟩
  by_cases hps : s.mem t (slot k n) &&& X86_PTE_PS = 0
  · exact .inr (.inr ⟨hp, hps, if_neg fun h => h.2.elim (by omega) fun h => h hps,
      if_pos ⟨hp, hps⟩⟩)
  · exact .inr (.inl ⟨hp, hps, if_pos ⟨hp, .inr hps⟩⟩)

/-- The walk of the source finds the leaf of the page. -/
theorem leafAt_eq (v : BuildTree s) (hn : BuiltPage n) (ho : o < X86_PTE_SIZE_4K) :
    leafAt s.mem s.root (n * X86_PTE_SIZE_4K + o) =
      (s.pageLeaf n).map fun x => (x.1, leafBytes x.2) := by
  set va := n * X86_PTE_SIZE_4K + o
  obtain ⟨i0, i1, i2, i3⟩ : pml4Index va = slot 0 n ∧ pdptIndex va = slot 1 n ∧
      pdIndex va = slot 2 n ∧ ptIndex va = slot 3 n := index_add ho
  rw [leafAt, i0, i1, i2, i3, Paging.pageLeaf]
  dsimp only
  -- The slot of the root table has a table.
  obtain ⟨t, hw1⟩ := Option.ne_none_iff_exists'.1 (v.pdpt n hn)
  have hlink := (walk_path_succ (by decide) rfl).symm.trans hw1
  rw [link] at hlink
  split_ifs at hlink with h0
  cases hlink
  rw [if_neg h0.1]
  obtain ⟨hp1, hl1, hw2⟩ | ⟨hp1, hps1, hl1⟩ | ⟨hp1, hps1, hl1, hw2⟩ := level_cases (by decide) hw1
  · have hw3 : s.walk (path 3 n) = none := by
      by_contra h
      exact walk_path_of_succ (by decide) h hw2
    rw [if_pos hp1, hl1, levelLeaf_eq_none hw2, levelLeaf_eq_none hw3]
    rfl
  · rw [if_neg hp1, if_pos hps1, hl1]
    rfl
  rw [if_neg hp1, if_neg (not_not.2 hps1), hl1]
  obtain ⟨hp2, hl2, hw3⟩ | ⟨hp2, hps2, hl2⟩ | ⟨hp2, hps2, hl2, hw3⟩ := level_cases (by decide) hw2
  · rw [if_pos hp2, hl2, levelLeaf_eq_none hw3]
    rfl
  · rw [if_neg hp2, if_pos hps2, hl2]
    rfl
  rw [if_neg hp2, if_neg (not_not.2 hps2), hl2, levelLeaf_eq hw3]
  split_ifs with hp3 h3 h3
  · exact absurd hp3 h3.1
  · rfl
  · rfl
  · exact absurd ⟨hp3, .inl rfl⟩ h3

/-! ## The parts of the image -/

/-- What the linker script and the check of the boot header say about the image: its parts are whole
pages, in order, from its start to `imageEnd`, and it lies in the kernel's window. -/
structure ImageLayout (env : BuildEnv) (s : Paging) (imageEnd : ℕ) : Prop where
  virtBase : env.kernelVirtBase = env.sections.kernelImageStart
  textStart : s.kernelTextStart = env.sections.kernelImageStart
  part : ∀ seg ∈ env.segs s, X86_PTE_SIZE_4K ∣ seg.1 ∧ X86_PTE_SIZE_4K ∣ seg.2.1 ∧ seg.1 ≤ seg.2.1 ∧
    env.sections.kernelImageStart ≤ seg.1 ∧ seg.2.1 ≤ imageEnd
  ordered : (env.segs s).Pairwise fun seg seg' => seg.2.1 ≤ seg'.1
  window : BOOTINFO_KERNEL_WINDOW_BASE.toNat ≤ env.sections.kernelImageStart ∧
    imageEnd ≤ BOOTINFO_KERNEL_WINDOW_END.toNat

/-- A part of the image has an address. -/
def InSegment (seg : ℕ × ℕ × ℕ) (va : ℕ) : Prop := seg.1 ≤ va ∧ va < seg.2.1

/-- The pages of a part of the image, and what they are to be mapped to. -/
def SegmentTo (env : BuildEnv) (seg : ℕ × ℕ × ℕ) : ℕ → ℕ → ℕ → Prop :=
  RangeTo (seg.1 / X86_PTE_SIZE_4K)
    ((env.kernelPhysBase + (seg.1 - env.kernelVirtBase)) / X86_PTE_SIZE_4K)
    ((seg.2.1 - seg.1) / X86_PTE_SIZE_4K) seg.2.2

/-- The pages of the kernel's window are below the last slot of the root table. -/
theorem builtPage_of_window (h1 : BOOTINFO_KERNEL_WINDOW_BASE.toNat ≤ n * X86_PTE_SIZE_4K)
    (h2 : n * X86_PTE_SIZE_4K < BOOTINFO_KERNEL_WINDOW_END.toNat) : BuiltPage n := by
  have hbase : BOOTINFO_KERNEL_WINDOW_BASE.toNat = 0xFFFFFFFF80000000 := by decide
  have hend : BOOTINFO_KERNEL_WINDOW_END.toNat = 0xFFFFFFFFA0000000 := by decide
  have hslot : slot 0 n = n / 2^27 % 512 := rfl
  have harray : ARCH_PML4_PAGE_ARRAY_END = 480 := rfl
  rw [hbase, size_4k] at h1
  rw [hend, size_4k] at h2
  refine ⟨⟨by omega, by omega⟩, fun h => ?_⟩
  omega

theorem leafFlags_text : LeafFlags (X86_PTE_P ||| X86_PTE_G) := ⟨by decide, by decide⟩

/-- The flags of the parts of the image. -/
theorem leafFlags_segs (seg : ℕ × ℕ × ℕ) (h : seg ∈ env.segs s) : LeafFlags seg.2.2 := by
  simp only [BuildEnv.segs, mem_cons, not_mem_nil, or_false] at h
  rcases h with rfl | rfl | rfl | rfl | rfl | rfl | rfl
  · exact leafFlags_text
  · exact leafFlags_ro
  all_goals exact leafFlags_hhdm

section Segments

variable {seg : ℕ × ℕ × ℕ} {imageEnd : ℕ}

/-- The pages of a part of the image start in it. -/
theorem ImageLayout.inSegment (h : ImageLayout env s imageEnd) (hseg : seg ∈ env.segs s) {p f : ℕ}
    (hm : SegmentTo env seg m p f) : InSegment seg (m * X86_PTE_SIZE_4K) := by
  obtain ⟨⟨u, hu⟩, ⟨w, hw⟩, -⟩ := h.part seg hseg
  obtain ⟨i, hi, rfl, -⟩ := hm
  rw [InSegment]
  rw [hu, hw, size_4k] at *
  omega

/-- They are below the last slot of the root table. -/
theorem ImageLayout.window_of (h : ImageLayout env s imageEnd) (hseg : seg ∈ env.segs s) {p f : ℕ}
    (hm : SegmentTo env seg m p f) : BOOTINFO_KERNEL_WINDOW_BASE.toNat ≤ m * X86_PTE_SIZE_4K ∧
      m * X86_PTE_SIZE_4K < BOOTINFO_KERNEL_WINDOW_END.toNat := by
  obtain ⟨h1, h2⟩ := h.inSegment hseg hm
  obtain ⟨-, -, -, h3, h4⟩ := h.part seg hseg
  exact ⟨(h.window.1.trans h3).trans h1, h2.trans_le (h4.trans h.window.2)⟩

/-- One part of the image. -/
theorem buildSegment_spec (ha : FreshTables alloc) (hf : LeafFlags seg.2.2)
    (hphys : X86_PTE_SIZE_4K ∣ env.kernelPhysBase) (hvirt : X86_PTE_SIZE_4K ∣ env.kernelVirtBase)
    (hstart : X86_PTE_SIZE_4K ∣ seg.1) (hend : X86_PTE_SIZE_4K ∣ seg.2.1) (v : BuildInv s)
    (hfree : ∀ m p f, SegmentTo env seg m p f → BuiltPage m ∧ s.pageLeaf m = none) :
    Outcome (MemoryPanic alloc) (Mapped env (SegmentTo env seg) s)
      (buildSegment env alloc s seg) := by
  rw [buildSegment]
  split
  next hempty =>
    refine Mapped.empty v ?_
    rintro m p f ⟨i, hi, -⟩
    rw [hempty, Nat.sub_self, Nat.zero_div] at hi
    exact Nat.not_lt_zero i hi
  next =>
    have hrange := @buildMapRange_spec s alloc env false _
      ((env.kernelPhysBase + (seg.1 - env.kernelVirtBase)) / X86_PTE_SIZE_4K) _ _ hf
      (fun i hi => hfree _ _ _ ⟨i, hi, rfl, rfl, rfl⟩) ha v
    rwa [Nat.div_mul_cancel hstart, Nat.div_mul_cancel (Nat.dvd_sub hend hstart),
      Nat.div_mul_cancel (Nat.dvd_add hphys (Nat.dvd_sub hstart hvirt))] at hrange

/-- The loop over the parts of the image. The window had no leaf before. -/
theorem segments_run (ha : FreshTables alloc) (hlayout : ImageLayout env s imageEnd)
    (hphys : X86_PTE_SIZE_4K ∣ env.kernelPhysBase) (v : BuildInv s)
    (hfree : ∀ n, BOOTINFO_KERNEL_WINDOW_BASE.toNat ≤ n * X86_PTE_SIZE_4K →
      n * X86_PTE_SIZE_4K < BOOTINFO_KERNEL_WINDOW_END.toNat → s.pageLeaf n = none) :
    Outcome (MemoryPanic alloc)
      (Mapped env (fun m p f => ∃ seg ∈ env.segs s, SegmentTo env seg m p f) s)
      ((env.segs s).foldlM (buildSegment env alloc) s) := by
  have hvirt : X86_PTE_SIZE_4K ∣ env.kernelVirtBase := by
    rw [hlayout.virtBase, ← hlayout.textStart]
    exact (hlayout.part _ mem_cons_self).1
  have hbuilt : ∀ seg ∈ env.segs s, ∀ m p f, SegmentTo env seg m p f → BuiltPage m :=
    fun seg hseg m p f hm =>
      builtPage_of_window (hlayout.window_of hseg hm).1 (hlayout.window_of hseg hm).2
  refine Mapped.loop v (fun seg hseg m p f hm => ⟨hbuilt seg hseg m p f hm, ?_⟩) ?_
    fun seg hseg s' v' hnone => ?_
  · exact hfree m (hlayout.window_of hseg hm).1 (hlayout.window_of hseg hm).2
  · refine hlayout.ordered.imp_of_mem fun hseg hseg' hle m p f p' f' hm hm' => ?_
    have := (hlayout.inSegment hseg hm).2
    have := (hlayout.inSegment hseg' hm').1
    omega
  · obtain ⟨h1, h2, -⟩ := hlayout.part seg hseg
    exact buildSegment_spec ha (leafFlags_segs seg hseg) hphys hvirt h1 h2 v' fun m p f hm =>
      ⟨hbuilt seg hseg m p f hm, hnone m p f hm⟩

end Segments

/-! ## The direct map -/

/-- A region has a physical address. -/
def InRegion (r : BootMemRegion) (pa : ℕ) : Prop :=
  r.base.toNat ≤ pa ∧ pa < r.base.toNat + r.length.toNat

/-- The direct map is to have a physical address: it is below 64 TiB and in a region of a covered
type. -/
def DirectMapped (map : List BootMemRegion) (pa : ℕ) : Prop :=
  pa < BOOTINFO_HHDM_SIZE ∧ ∃ r ∈ map, hhdmMapsType r.type = true ∧ InRegion r pa

/-- The physical address that the tables give to an address, whatever the size of the leaf. -/
def Paging.translate (s : Paging) (va : ℕ) : Option ℕ :=
  (leafAt s.mem s.root va).map fun (entry, leafSize) => leafPhys va entry leafSize

/-- What the leaf of a physical address in the direct map is. -/
structure DirectLeaf (env : BuildEnv) (map : List BootMemRegion) (pa entry leafSize : ℕ) :
    Prop where
  nx : entry &&& X86_PTE_NX ≠ 0
  readOnly : entry &&& X86_PTE_W = 0 ↔ env.kernelPhysBase ≤ pa ∧ pa < env.roPhysEnd
  writeCombining : cacheOfEntry entry = VMM_CACHE_WC ↔
    ∃ r ∈ map, r.type = BOOT_MEM_FRAMEBUFFER ∧ InRegion r pa
  cached : cacheOfEntry entry ≠ VMM_CACHE_WC → cacheOfEntry entry = VMM_CACHE_WB
  /-- A large leaf covers nothing below 2 MiB, and a 1 GiB one needs a processor that has them. -/
  large : leafSize = X86_PTE_SIZE_4K ∨ (leafSize = X86_PTE_SIZE_2M ∨
    leafSize = X86_PTE_SIZE_1G ∧ env.has1GPages = true) ∧ X86_PTE_SIZE_2M ≤ pa / leafSize * leafSize

/-- The direct map is exact. -/
structure DirectMapExact (env : BuildEnv) (map : List BootMemRegion) (s : Paging) : Prop where
  translate : ∀ pa, pa < BOOTINFO_HHDM_SIZE →
    (s.translate (BOOTINFO_HHDM_BASE + pa) = some pa ↔ DirectMapped map pa)
  unmapped : ∀ pa, pa < BOOTINFO_HHDM_SIZE → ¬ DirectMapped map pa →
    leafAt s.mem s.root (BOOTINFO_HHDM_BASE + pa) = none
  leaf : ∀ pa entry leafSize, pa < BOOTINFO_HHDM_SIZE →
    leafAt s.mem s.root (BOOTINFO_HHDM_BASE + pa) = some (entry, leafSize) →
    DirectLeaf env map pa entry leafSize
  /-- Above the direct map only the image and the `Page` array are mapped. -/
  above : ∀ va, BOOTINFO_HHDM_BASE + BOOTINFO_HHDM_SIZE ≤ va → va < 2^64 →
    BuiltSlot (pml4Index va) → (∀ seg ∈ env.segs s, ¬ InSegment seg va) →
      leafAt s.mem s.root va = none

variable {r : BootMemRegion} {p : ℕ}

/-- A region has an address exactly when it has its page. -/
theorem inRegion_iff (hr : RegionOk r) (hp : p < HHDM_PAGES) (ho : o < X86_PTE_SIZE_4K) :
    InRegion r (p * X86_PTE_SIZE_4K + o) ↔ regionStart r ≤ p ∧ p < regionEnd r := by
  obtain ⟨hbase, hstop⟩ := region_pages hr
  rw [InRegion, regionEnd, lt_min_iff, and_iff_left hp]
  rw [size_4k] at ho hbase hstop ⊢
  omega

/-- The flags of a leaf of the direct map say what its region asks for. -/
theorem directFlags_spec (env : BuildEnv) (type : BitVec 32) (p : ℕ) :
    directFlags env type p &&& X86_PTE_NX ≠ 0 ∧ directFlags env type p &&& X86_PTE_PCD = 0 ∧
      (directFlags env type p &&& X86_PTE_PWT ≠ 0 ↔ type = BOOT_MEM_FRAMEBUFFER) ∧
      (directFlags env type p &&& X86_PTE_W = 0 ↔ type = BOOT_MEM_KERNEL ∧
        env.kernelPhysBase ≤ p * X86_PTE_SIZE_4K ∧ p * X86_PTE_SIZE_4K < env.roPhysEnd) := by
  rw [directFlags]
  by_cases hkernel : type = BOOT_MEM_KERNEL
  · have hfb : type ≠ BOOT_MEM_FRAMEBUFFER := by
      rw [hkernel]
      decide
    split_ifs with hro
    · exact ⟨by decide, by decide, iff_of_false (by decide) hfb,
        iff_of_true (by decide) ⟨hkernel, hro⟩⟩
    · exact ⟨by decide, by decide, iff_of_false (by decide) hfb,
        iff_of_false (by decide) fun h => hro h.2⟩
  · split_ifs with hfb
    · exact ⟨by decide, by decide, iff_of_true (by decide) hfb,
        iff_of_false (by decide) fun h => hkernel h.1⟩
    · exact ⟨by decide, by decide, iff_of_false (by decide) hfb,
        iff_of_false (by decide) fun h => hkernel h.1⟩

section Exact

variable {s₁ s₂ : Paging} {imageEnd lo hi : ℕ}

/-- The leaf of a page of a region, read as the leaf of an address. -/
theorem Leaf.directLeaf (hro : RoAligned env lo hi) (hmap : MemMapOk map)
    (hkernel : ∃ r ∈ map, r.type = BOOT_MEM_KERNEL ∧ r.base.toNat ≤ env.kernelPhysBase ∧
      env.roPhysEnd ≤ r.base.toNat + r.length.toNat)
    (hr : r ∈ map) (ho : o < X86_PTE_SIZE_4K)
    (hin : InRegion r (p * X86_PTE_SIZE_4K + o)) {x : ℕ × ℕ}
    (hx : Leaf env (hhdmPage p) p (directFlags env r.type p) x) :
    DirectLeaf env map (p * X86_PTE_SIZE_4K + o) x.1 (leafBytes x.2) := by
  obtain ⟨hnx, hpcd, hpwt, hw⟩ := directFlags_spec env r.type p
  rw [← hx.flag _ (by decide) (by decide)] at hnx hpcd hpwt hw
  have hcache : cacheOfEntry x.1 =
      if r.type = BOOT_MEM_FRAMEBUFFER then VMM_CACHE_WC else VMM_CACHE_WB := by
    rw [cacheOfEntry, if_neg (not_not.2 hpcd)]
    simp only [hpwt]
  -- The read-only part starts and ends with a page.
  have hpage : env.kernelPhysBase ≤ p * X86_PTE_SIZE_4K ∧ p * X86_PTE_SIZE_4K < env.roPhysEnd ↔
      env.kernelPhysBase ≤ p * X86_PTE_SIZE_4K + o ∧ p * X86_PTE_SIZE_4K + o < env.roPhysEnd := by
    rw [hro.start, hro.stop]
    rw [size_4k] at ho ⊢
    omega
  refine ⟨hnx, ?_, ?_, ?_, ?_⟩
  · rw [hw, hpage]
    refine ⟨fun h => h.2, fun h => ⟨?_, h⟩⟩
    obtain ⟨r', hr', htype, h1, h2⟩ := hkernel
    rw [hmap.region_unique hr hr' hin ⟨by omega, by omega⟩, htype]
  · rw [hcache]
    constructor
    · intro h
      refine ⟨r, hr, ?_, hin⟩
      by_contra hfb
      rw [if_neg hfb] at h
      exact absurd h (by decide)
    · rintro ⟨r', hr', htype, hin'⟩
      rw [hmap.region_unique hr hr' hin hin', if_pos htype]
  · rw [hcache]
    split_ifs
    · exact fun h => absurd rfl h
    · exact fun _ => rfl
  · obtain ⟨h1, h3⟩ := hx.level
    have hdiv : ∀ k ≤ 3, (p * X86_PTE_SIZE_4K + o) / leafBytes k * leafBytes k =
        p / leafPages k * leafPages k * X86_PTE_SIZE_4K := fun k hk => by
      have hp : (p * X86_PTE_SIZE_4K + o) / X86_PTE_SIZE_4K = p := by
        rw [size_4k] at ho ⊢
        omega
      rw [leafBytes_eq hk, Nat.mul_comm (leafPages k), ← Nat.div_div_eq_div_mul, hp,
        Nat.mul_comm X86_PTE_SIZE_4K, Nat.mul_assoc]
    rcases eq_or_ne x.2 3 with h | h
    · rw [h]
      exact .inl rfl
    · refine .inr ⟨?_, ?_⟩
      · obtain h | h : x.2 = 1 ∨ x.2 = 2 := by omega
        · rw [h]
          exact .inr ⟨rfl, hx.huge h⟩
        · rw [h]
          exact .inl rfl
      · rw [hdiv x.2 h3]
        have := hx.large h
        rw [show X86_PTE_SIZE_2M = 512 * X86_PTE_SIZE_4K by decide]
        exact Nat.mul_le_mul_right _ this

/-- The pages of the direct map and those of the kernel's window are apart. -/
theorem hhdmPage_lt_window (hp : p < HHDM_PAGES) :
    hhdmPage p * X86_PTE_SIZE_4K < BOOTINFO_KERNEL_WINDOW_BASE.toNat := by
  have hbase : BOOTINFO_KERNEL_WINDOW_BASE.toNat = 0xFFFFFFFF80000000 := by decide
  rw [HHDM_PAGES] at hp
  rw [hbase, size_4k, hhdmPage]
  omega

/-- A page that starts below a page boundary ends at or below it. -/
theorem add_lt_of_mul_lt {q : ℕ} (ho : o < X86_PTE_SIZE_4K)
    (h : n * X86_PTE_SIZE_4K < X86_PTE_SIZE_4K * q) :
    n * X86_PTE_SIZE_4K + o < X86_PTE_SIZE_4K * q := by
  have hlt : n < q := by
    rw [Nat.mul_comm n] at h
    exact Nat.lt_of_mul_lt_mul_left h
  calc n * X86_PTE_SIZE_4K + o < n * X86_PTE_SIZE_4K + X86_PTE_SIZE_4K := Nat.add_lt_add_left ho _
    _ = X86_PTE_SIZE_4K * (n + 1) := by rw [Nat.mul_add, Nat.mul_one, Nat.mul_comm]
    _ ≤ X86_PTE_SIZE_4K * q := Nat.mul_le_mul_left _ hlt

section

variable (hd : Mapped env (fun m p f => ∃ r ∈ map, Direct env r m p f) s₁ s₂)
  (hempty : ∀ n, BuiltPage n → s₁.pageLeaf n = none)
  (hs : Mapped env (fun m p f => ∃ seg ∈ env.segs s₂, SegmentTo env seg m p f) s₂ s')
  (hlayout : ImageLayout env s₂ imageEnd) (hro : RoAligned env lo hi) (hmap : MemMapOk map)
  (hkernel : ∃ r ∈ map, r.type = BOOT_MEM_KERNEL ∧ r.base.toNat ≤ env.kernelPhysBase ∧
    env.roPhysEnd ≤ r.base.toNat + r.length.toNat)

include hd hempty hs hlayout hro hmap hkernel

/-- An address of the direct map has the leaf of its region, or none. -/
theorem leafAt_direct (pa : ℕ) (hpa : pa < BOOTINFO_HHDM_SIZE) :
    (DirectMapped map pa ∧ ∃ entry leafSize,
      leafAt s'.mem s'.root (BOOTINFO_HHDM_BASE + pa) = some (entry, leafSize) ∧
      leafPhys (BOOTINFO_HHDM_BASE + pa) entry leafSize = pa ∧
        DirectLeaf env map pa entry leafSize) ∨
    ¬ DirectMapped map pa ∧ leafAt s'.mem s'.root (BOOTINFO_HHDM_BASE + pa) = none := by
  have hpa' := hpa
  -- Every address is an offset in a page.
  obtain ⟨p, o, hp, ho, rfl⟩ : ∃ p o, p < HHDM_PAGES ∧ o < X86_PTE_SIZE_4K ∧
      pa = p * X86_PTE_SIZE_4K + o :=
    ⟨pa / X86_PTE_SIZE_4K, pa % X86_PTE_SIZE_4K, (Nat.div_lt_iff_lt_mul (by decide)).2 hpa,
      Nat.mod_lt _ (by decide), (Nat.div_add_mod' _ _).symm⟩
  have hb := builtPage_hhdmPage hp
  -- The parts of the image are not in the direct map.
  have hsame : s'.pageLeaf (hhdmPage p) = s₂.pageLeaf (hhdmPage p) := by
    refine hs.old _ hb ?_
    rintro q f ⟨seg, hseg, hm⟩
    exact absurd (hlayout.window_of hseg hm).1 (not_le.2 (hhdmPage_lt_window hp))
  rw [← Nat.add_assoc, ← hhdmPage_mul, leafAt_eq hs.inv.toBuildTree hb ho, hsame]
  by_cases hmapped : DirectMapped map (p * X86_PTE_SIZE_4K + o)
  · obtain ⟨-, r, hr, htype, hin⟩ := id hmapped
    have hpage := (inRegion_iff (hmap.region r hr) hp ho).1 hin
    obtain ⟨x, hx, hleaf⟩ := hd.new _ p _ ⟨r, hr, htype, rfl, hpage, rfl⟩
    exact .inl ⟨hmapped, x.1, leafBytes x.2, by rw [hx]; rfl,
      hleaf.phys (hp.trans (by decide)) o ho, hleaf.directLeaf hro hmap hkernel hr ho hin⟩
  · refine .inr ⟨hmapped, ?_⟩
    rw [hd.old _ hb, hempty _ hb]
    · rfl
    rintro q f ⟨r, hr, htype, heq, hq, -⟩
    rw [← hhdmPage_inj.1 heq] at hq
    exact hmapped ⟨hpa', r, hr, htype, (inRegion_iff (hmap.region r hr) hp ho).2 hq⟩

/-- The leaves of the regions and of the image make the direct map exact. -/
theorem directMapExact : DirectMapExact env map s' := by
  have hcases := leafAt_direct hd hempty hs hlayout hro hmap hkernel
  refine ⟨fun pa hpa => ?_, fun pa hpa hno => ?_, fun pa entry leafSize hpa hleaf => ?_, ?_⟩
  · rw [Paging.translate]
    rcases hcases pa hpa with ⟨hmapped, entry, leafSize, hleaf, hphys, -⟩ | ⟨hno, hnone⟩
    · rw [hleaf]
      exact iff_of_true (congrArg some hphys) hmapped
    · rw [hnone]
      exact iff_of_false nofun hno
  · exact ((hcases pa hpa).resolve_left fun h => hno h.1).2
  · rcases hcases pa hpa with ⟨-, entry, leafSize, hleaf', -, hdirect⟩ | ⟨-, hnone⟩
    · rw [hleaf] at hleaf'
      cases hleaf'
      exact hdirect
    · rw [hleaf] at hnone
      exact nomatch hnone
  · intro va hva hlt hslot hsegment
    obtain ⟨n, o, ho, rfl⟩ : ∃ n o, o < X86_PTE_SIZE_4K ∧ va = n * X86_PTE_SIZE_4K + o :=
      ⟨_, _, Nat.mod_lt _ (by decide), (Nat.div_add_mod' _ _).symm⟩
    have hbase : BOOTINFO_HHDM_BASE + BOOTINFO_HHDM_SIZE =
        hhdmPage HHDM_PAGES * X86_PTE_SIZE_4K := by decide
    have hpages : hhdmPage HHDM_PAGES = 2^52 - 2^34 := by decide
    rw [hbase, hpages] at hva
    rw [(index_add ho).1] at hslot
    have hn : BuiltPage n := by
      rw [size_4k] at ho hva hlt
      exact ⟨⟨by omega, by omega⟩, hslot⟩
    rw [leafAt_eq hs.inv.toBuildTree hn ho, hs.old n hn ?_, hd.old n hn ?_, hempty n hn]
    · rfl
    · rintro p f ⟨r, -, -, rfl, hp, -⟩
      have := hp.2.trans_le regionEnd_le
      rw [hhdmPage] at hva
      rw [HHDM_PAGES] at this
      rw [size_4k] at ho hva
      omega
    · -- A part of the image that has the page has the address.
      rintro p f ⟨seg, hseg, hm⟩
      obtain ⟨hle, hlt⟩ := hlayout.inSegment hseg hm
      obtain ⟨q, hq⟩ := (hlayout.part seg hseg).2.1
      have hsegs : env.segs s' = env.segs s₂ := by rw [hs.same]; rfl
      refine hsegment seg (hsegs ▸ hseg) ⟨hle.trans (Nat.le_add_right _ _), ?_⟩
      rw [hq] at hlt ⊢
      exact add_lt_of_mul_lt ho hlt

end

end Exact

/-! ## `archPagingBuildKernel` -/

variable {mem : ℕ → ℕ → ℕ} {entry va : ℕ}

theorem leafAt_size {root leafSize : ℕ}
    (h : leafAt mem root va = some (entry, leafSize)) : ∃ j, leafSize = 2^j := by
  rw [leafAt] at h
  dsimp only at h
  split_ifs at h <;> cases h
  · exact ⟨30, rfl⟩
  · exact ⟨21, rfl⟩
  · exact ⟨12, rfl⟩

/-- A walk keeps the offset in the page. -/
theorem dvd_leafPhys {j : ℕ} (hva : X86_PTE_SIZE_4K ∣ va) :
    X86_PTE_SIZE_4K ∣ leafPhys va entry (2^j) := by
  have h4k : X86_PTE_SIZE_4K = 2^12 := by decide
  rw [h4k] at hva ⊢
  have hlow : va &&& (2^12 - 1) = 0 := by
    rw [Nat.and_two_pow_sub_one_eq_mod]
    exact Nat.mod_eq_zero_of_dvd hva
  have hmask : X86_PTE_ADDR_MASK &&& (2^12 - 1) = 0 := by decide
  have haddr : (entry &&& X86_PTE_ADDR_MASK &&& (2^64 - 2^j)) &&& (2^12 - 1) = 0 := by
    rw [Nat.land_assoc, Nat.land_comm (2^64 - 2^j), Nat.land_assoc,
      ← Nat.land_assoc X86_PTE_ADDR_MASK, hmask, Nat.zero_and, Nat.and_zero]
  have hoff : (va &&& (2^j - 1)) &&& (2^12 - 1) = 0 := by
    rw [Nat.land_assoc, Nat.land_comm (2^j - 1), ← Nat.land_assoc, hlow, Nat.zero_and]
  apply Nat.dvd_of_mod_eq_zero
  rw [← Nat.and_two_pow_sub_one_eq_mod, leafPhys, Nat.and_or_distrib_right, haddr, hoff]
  rfl

/-- The loader's tables give the image whole pages. -/
theorem dvd_of_archEarlyLookup {cr3 pa : ℕ} (hva : X86_PTE_SIZE_4K ∣ va)
    (h : (archEarlyLookup mem cr3 va).map Prod.fst = some pa) : X86_PTE_SIZE_4K ∣ pa := by
  rw [archEarlyLookup, Option.map_map] at h
  obtain ⟨⟨entry, leafSize⟩, hleaf, hpa⟩ := Option.map_eq_some_iff.1 h
  obtain ⟨j, rfl⟩ := leafAt_size hleaf
  rw [← show leafPhys va entry (2^j) = pa from hpa]
  exact dvd_leafPhys hva

/-- The image lies in one `KERNEL` region. -/
def ImageInKernelRegion (env : BuildEnv) (map : List BootMemRegion) (imageEnd : ℕ) : Prop :=
  ∃ r ∈ map, r.type = BOOT_MEM_KERNEL ∧ r.base.toNat ≤ env.kernelPhysBase ∧
    env.kernelPhysBase + (imageEnd - env.sections.kernelImageStart) ≤ r.base.toNat + r.length.toNat

section Build

variable {imageEnd : ℕ}

/-- The layout is about the linker's symbols only. -/
theorem ImageLayout.congr (h : ImageLayout env s imageEnd)
    (hstart : s'.kernelTextStart = s.kernelTextStart) (hend : s'.kernelTextEnd = s.kernelTextEnd) :
    ImageLayout env s' imageEnd := by
  have hsegs : env.segs s' = env.segs s := by rw [BuildEnv.segs, BuildEnv.segs, hstart, hend]
  exact ⟨h.virtBase, hstart.trans h.textStart, hsegs ▸ h.part, hsegs ▸ h.ordered, h.window⟩

/-- The end of the read-only part does not wrap, and lies in the image. -/
theorem ImageLayout.roPhysEnd (hlayout : ImageLayout env s imageEnd) (hmap : MemMapOk map)
    (hkernel : ImageInKernelRegion env map imageEnd) :
    env.roPhysEnd =
        env.kernelPhysBase + (env.sections.kernelRodataEnd - env.sections.kernelImageStart) ∧
      ∃ r ∈ map, r.type = BOOT_MEM_KERNEL ∧ r.base.toNat ≤ env.kernelPhysBase ∧
        env.roPhysEnd ≤ r.base.toNat + r.length.toNat := by
  obtain ⟨r, hr, htype, hbase, hend⟩ := hkernel
  have hseg := (hlayout.part _ (mem_cons_of_mem _ mem_cons_self)).2.2.2
  have hlt := (hmap.region r hr).end_lt
  dsimp only at hseg
  have hro : env.roPhysEnd =
      env.kernelPhysBase + (env.sections.kernelRodataEnd - env.sections.kernelImageStart) :=
    Nat.mod_eq_of_lt (by omega)
  exact ⟨hro, r, hr, htype, hbase, by omega⟩

/-- Where the loader has put the image at whole pages, its read-only part is whole pages. -/
theorem ImageLayout.roAligned (hlayout : ImageLayout env s imageEnd)
    (hphys : X86_PTE_SIZE_4K ∣ env.kernelPhysBase)
    (hro : env.roPhysEnd =
      env.kernelPhysBase + (env.sections.kernelRodataEnd - env.sections.kernelImageStart)) :
    RoAligned env (env.kernelPhysBase / X86_PTE_SIZE_4K) (env.roPhysEnd / X86_PTE_SIZE_4K) := by
  have htext := (hlayout.part _ mem_cons_self).1
  have hrodata := (hlayout.part _ (mem_cons_of_mem _ mem_cons_self)).2.1
  rw [hlayout.textStart] at htext
  have hend : X86_PTE_SIZE_4K ∣ env.roPhysEnd := by
    rw [hro]
    exact Nat.dvd_add hphys (Nat.dvd_sub hrodata htext)
  exact ⟨(Nat.div_mul_cancel hphys).symm, (Nat.div_mul_cancel hend).symm,
    Nat.div_le_div_right (by omega)⟩

/-- `archPagingBuildKernel` never meets a conflict, and leaves an exact direct map. -/
theorem archPagingBuildKernel_directMap (ha : BuildAnswers alloc env) (ht : s.Tables)
    (hcheck : bootMemMapCheck map = .ok ()) (hlayout : ImageLayout env s imageEnd)
    (hkernel : ImageInKernelRegion env map imageEnd) :
    Outcome (BuildExcused alloc env s) (DirectMapExact env map)
      (archPagingBuildKernel alloc env map s) := by
  have hmap := (bootMemMapCheck_eq_ok map).1 hcheck
  obtain ⟨hro, hregion⟩ := hlayout.roPhysEnd hmap hkernel
  have hcontained : textContained env map = true := by
    obtain ⟨r, hr, htype, hbase, hend⟩ := hregion
    refine any_eq_true.2 ⟨r, hr, decide_eq_true ⟨htype, hbase, ?_⟩⟩
    rwa [(hmap.region r hr).toNat_end]
  rw [archPagingBuildKernel]
  split
  next htwice => exact htwice
  split
  next htext => exact htext
  next htext =>
  have hphys : X86_PTE_SIZE_4K ∣ env.kernelPhysBase :=
    dvd_of_archEarlyLookup (hlayout.part _ mem_cons_self).1 (not_not.1 htext)
  have haligned := hlayout.roAligned hphys hro
  cases halloc : alloc s with
  | error st =>
    simp only [allocTable, halloc]
    exact ⟨s, ht, halloc⟩
  | ok phys =>
    simp only [allocTable, halloc]
    refine (SlotInv.run ha (SlotInv.init ha ht halloc)).bind fun s₁ h₁ => ?_
    obtain ⟨hinv, hempty⟩ := h₁.build
    rw [hcontained]
    -- The loop over the regions starts with its two variables set, and with the tables of the
    -- slots.
    set s₂ : Paging := { s₁ with
      kernelRoPhysStart := env.kernelPhysBase, kernelRoPhysEnd := env.roPhysEnd } with hs₂
    have hinv₂ : BuildInv s₂ := ⟨⟨hinv.tables, hinv.sole, hinv.pdpt⟩, hinv.full⟩
    refine ((directMap_run ha.toFreshTables haligned hmap hinv₂ hempty).imp (fun _ h => h.excused)
      fun _ h => h).bind fun s₃ h₃ => ?_
    have hlayout₃ : ImageLayout env s₃ imageEnd := by
      refine hlayout.congr ?_ ?_
      · rw [h₃.same]
        exact h₁.textStart
      · rw [h₃.same]
        exact h₁.textEnd
    refine (segments_run ha.toFreshTables hlayout₃ hphys h₃.inv fun n hn₁ hn₂ => ?_).imp
      (fun _ h => h.excused) fun s' hs => directMapExact h₃ hempty hs hlayout₃ haligned hmap hregion
    have hn := builtPage_of_window hn₁ hn₂
    refine (h₃.old n hn ?_).trans (hempty n hn)
    rintro p f ⟨r, -, -, rfl, hp, -⟩
    exact absurd hn₁ (not_le.2 (hhdmPage_lt_window (hp.2.trans_le regionEnd_le)))

end Build

/-! ## A run that returns -/

/-- The path to a table has indices below 512. -/
theorem Paging.Tables.of_walk (ht : s.Tables) {q : List ℕ} {c : ℕ} (h : s.walk q = some c) :
    ∀ i ∈ q, i < 512 := by
  suffices ∀ (q : List ℕ) (a c : ℕ), RadixTable.walk link s.mem a q = some c → ∀ i ∈ q, i < 512 from
    this q s.root c h
  intro q
  induction q with
  | nil => exact fun _ _ _ i hi => absurd hi not_mem_nil
  | cons i q ih =>
    intro a c hc
    obtain ⟨b, hb, hc⟩ := Option.bind_eq_some_iff.1 hc
    exact forall_mem_cons.2 ⟨mem_range.1 (ht.of_link hb).1, ih b c hc⟩

/-- There are fewer than `2^28` tables, so one of the first `2^28` pages is not one of them. -/
theorem Paging.Tables.exists_unused (ht : s.Tables) :
    ∃ k < 2^28, Unused link 3 s.mem s.root (k * X86_PTE_SIZE_4K) := by
  -- A path is a number in base 513, as its indices can be counted from one.
  let page : ℕ → ℕ := fun c => (s.walk ((Nat.digits 513 c).map (· - 1))).getD 0 / X86_PTE_SIZE_4K
  have hcard : ((Finset.range (513^3)).image page).card < (Finset.range (2^28)).card :=
    Finset.card_image_le.trans_lt (by norm_num)
  obtain ⟨k, hk, hnot⟩ := Finset.exists_mem_notMem_of_card_lt_card hcard
  refine ⟨k, Finset.mem_range.1 hk, fun q hq hw => hnot ?_⟩
  have hdigit : ∀ d ∈ q.map (· + 1), d < 513 ∧ d ≠ 0 := by
    intro d hd
    obtain ⟨i, hi, rfl⟩ := mem_map.1 hd
    have := ht.of_walk hw i hi
    omega
  refine Finset.mem_image.2 ⟨Nat.ofDigits 513 (q.map (· + 1)), Finset.mem_range.2 ?_, ?_⟩
  · calc Nat.ofDigits 513 (q.map (· + 1)) < 513^(q.map (· + 1)).length :=
          Nat.ofDigits_lt_base_pow_length (by decide) fun d hd => (hdigit d hd).1
      _ ≤ 513^3 := Nat.pow_le_pow_right (by decide) (by rwa [length_map])
  · have hdigits : Nat.digits 513 (Nat.ofDigits 513 (q.map (· + 1))) = q.map (· + 1) :=
      Nat.digits_ofDigits 513 (by decide) _ (fun d hd => (hdigit d hd).1)
        fun h => (hdigit _ (getLast_mem h)).2
    have hw : s.walk q = some (k * X86_PTE_SIZE_4K) := hw
    show (s.walk ((Nat.digits 513 _).map (· - 1))).getD 0 / _ = k
    rw [hdigits, map_map, show ((· - 1) ∘ (· + 1) : ℕ → ℕ) = id from rfl, map_id, hw]
    exact Nat.mul_div_cancel k (by decide)

/-- The address of a page is that of a table. -/
theorem tableAt_page (hk : k < 2^28) : tableAt (k * X86_PTE_SIZE_4K) = k * X86_PTE_SIZE_4K := by
  have h4k : X86_PTE_SIZE_4K = 2^12 := by decide
  rw [tableAt, show X86_PTE_ADDR_MASK = 2^52 - 2^12 by decide, h4k]
  exact land_two_pow_sub_of_dvd (by decide) (by omega) (Nat.dvd_mul_left _ _)

open Classical in
/-- A memory manager that finds a page that is not a table whenever there is one. -/
noncomputable def freshAnswers : TableAnswers := fun s =>
  if h : ∃ k < 2^28, Unused link 3 s.mem s.root (k * X86_PTE_SIZE_4K) then
    .ok (h.choose * X86_PTE_SIZE_4K)
  else .error .errNoMemory

theorem freshAnswers_fresh : FreshTables freshAnswers := by
  refine ⟨fun s phys h => ?_, fun s st h => ?_⟩
  · rw [freshAnswers] at h
    split_ifs at h with hex
    cases h
    rw [tableAt_page hex.choose_spec.1]
    exact hex.choose_spec.2
  · rw [freshAnswers] at h
    split_ifs at h
    cases h
    decide

/-- It always finds one. -/
theorem freshAnswers_ok (st : Status) : ¬ NoTable freshAnswers st := by
  rintro ⟨s, ht, h⟩
  rw [freshAnswers, dif_pos ht.exists_unused] at h
  exact nomatch h

/-- The loader's tables for an image at 1 GiB, and the symbols of its text. -/
def loaderTables : Paging where
  mem t i := if t = 0x1000 ∧ i = 511 then 0x2003 else if t = 0x2000 ∧ i = 510 then 0x40000083 else 0
  kernelPml4Phys := 0
  tablesActive := false
  kernelRoPhysStart := 0
  kernelRoPhysEnd := 0
  kernelTextStart := 0xFFFFFFFF80000000
  kernelTextEnd := 0xFFFFFFFF80002000
  cpuidMaxExtended := 0
  cpuidAddressSize := 0
  cr0Wp := true
  eferNxe := true

/-- The rest of the image. -/
def loaderEnv : BuildEnv where
  sections :=
    { kernelImageStart := 0xFFFFFFFF80000000
      kernelRodataStart := 0xFFFFFFFF80002000, kernelRodataEnd := 0xFFFFFFFF80003000
      kernelDataStart := 0xFFFFFFFF80003000, kernelDataEnd := 0xFFFFFFFF80005000
      kernelBootStackBottom := 0xFFFFFFFF80006000, kernelBootStackTop := 0xFFFFFFFF8000A000
      kernelIst1Bottom := 0xFFFFFFFF8000B000, kernelIst1Top := 0xFFFFFFFF8000F000
      kernelIst2Bottom := 0xFFFFFFFF80010000, kernelIst2Top := 0xFFFFFFFF80014000
      kernelIst3Bottom := 0xFFFFFFFF80015000, kernelIst3Top := 0xFFFFFFFF80019000 }
  kernelPhysBase := 0x40000000
  kernelVirtBase := 0xFFFFFFFF80000000
  has1GPages := true
  cr3 := 0x1000
  reservedTablePage _ := false

/-- The end of the image. -/
def loaderImageEnd : ℕ := 0xFFFFFFFF80019000

/-- A map with low memory, the image, and a framebuffer. -/
def loaderMap : List BootMemRegion :=
  [⟨0x1000, 0x9E000, BOOT_MEM_USABLE, 0⟩, ⟨0x40000000, 0x200000, BOOT_MEM_KERNEL, 0⟩,
    ⟨0x80000000, 0x300000, BOOT_MEM_FRAMEBUFFER, 0⟩]

theorem loaderTables_tables : loaderTables.Tables := by
  intro t i hi
  show (if t = 0x1000 ∧ i = 511 then 0x2003 else if t = 0x2000 ∧ i = 510 then 0x40000083 else 0) = 0
  rw [if_neg (by omega), if_neg (by omega)]

theorem loaderLayout : ImageLayout loaderEnv loaderTables loaderImageEnd := by
  refine ⟨rfl, rfl, by decide +kernel, by decide +kernel, by decide +kernel⟩

theorem loaderTables_pageArray : ¬ LoaderPageArray loaderEnv loaderTables := by
  rintro ⟨idx, -, hlt, hp⟩
  have hlt : idx < 480 := hlt
  refine hp ?_
  show (if 0x1000 = 0x1000 ∧ idx = 511 then 0x2003
    else if 0x1000 = 0x2000 ∧ idx = 510 then 0x40000083 else 0) &&& X86_PTE_P = 0
  rw [if_neg (by omega), if_neg (by omega)]
  rfl

theorem loader_not_excused (e : BuildPanic) :
    ¬ BuildExcused freshAnswers loaderEnv loaderTables e := by
  intro h
  cases e with
  | calledTwice => exact absurd rfl h
  | textBase => exact absurd (by decide +kernel) h
  | hugePageArray idx => exact loaderTables_pageArray h
  | notReserved phys => exact loaderTables_pageArray h
  | pml4Memory st => exact freshAnswers_ok st h
  | slotMemory idx st => exact freshAnswers_ok st h
  | pdptMemory va st => exact freshAnswers_ok st h
  | pdMemory va st => exact freshAnswers_ok st h
  | ptMemory va st => exact freshAnswers_ok st h
  | _ => exact h.elim

/-- The build returns, with an exact direct map, for a loader that has done its part. -/
theorem archPagingBuildKernel_directMap_loader :
    ∃ s', archPagingBuildKernel freshAnswers loaderEnv loaderMap loaderTables = .ok s' ∧
      DirectMapExact loaderEnv loaderMap s' := by
  have hanswers : BuildAnswers freshAnswers loaderEnv := ⟨freshAnswers_fresh, fun _ _ _ => rfl⟩
  have hkernel : ImageInKernelRegion loaderEnv loaderMap loaderImageEnd :=
    ⟨⟨0x40000000, 0x200000, BOOT_MEM_KERNEL, 0⟩, by decide +kernel⟩
  have hcheck : bootMemMapCheck loaderMap = .ok () := by decide +kernel
  have htables := loaderTables_tables
  have hlayout := loaderLayout
  have hexcused := loader_not_excused
  -- On the closed state the elaborator would start to run the build.
  generalize loaderTables = s at htables hlayout hexcused ⊢
  exact (archPagingBuildKernel_directMap hanswers htables hcheck hlayout hkernel).exists_ok hexcused

end Bongos.Arch
