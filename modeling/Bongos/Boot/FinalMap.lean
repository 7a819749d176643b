import Bongos.Boot.Heap
import Bongos.Boot.MemMapNormal
import Bongos.Core.BootRefs

/-!
# The final memory map

`bootAllocAdd` and `bootHandoffFinalMap` of `boothandoff.c`: the loader records what it allocated,
and the map for the kernel is the normalisation of the firmware's ranges together with these
records. What was granted by the heap was usable, and the records outrank usable memory and do not
overlap, so that every record is inside a region of its type and no other page changes.
-/

namespace Bongos.Boot

open List

open Bongos.Core

def BOOT_HANDOFF_MAX_ALLOCS : ℕ := 16

def HANDOFF_PAGE_SIZE : BitVec 64 := 4096

structure BootAlloc where
  base : BitVec 64
  pages : BitVec 64
  type : BitVec 32
  deriving DecidableEq

abbrev BootAllocList := List BootAlloc

def bootAllocAdd (list : BootAllocList) (base pages : BitVec 64) (type : BitVec 32) :
    BootStatus × BootAllocList :=
  if list.length ≥ BOOT_HANDOFF_MAX_ALLOCS then (.errMemmapCapacity, list)
  else (.ok, list ++ [⟨base, pages, type⟩])

/-- A record as an input of the normalisation. -/
def BootAlloc.toInput (a : BootAlloc) : MemMapInput := ⟨a.base, a.pages * HANDOFF_PAGE_SIZE, a.type⟩

/-- `bootHandoffFinalMap`; nothing is written if there is no room in `work`. -/
def bootHandoffFinalMap (fwInputs : List MemMapInput) (allocs : BootAllocList)
    (workCap outCap : ℕ) : BootStatus × List BootMemRegion :=
  if fwInputs.length + allocs.length > workCap then (.errMemmapCapacity, [])
  else memMapNormalize (fwInputs ++ allocs.map BootAlloc.toInput) outCap

/-- The list after a sequence of calls of `bootAllocAdd`. -/
def recordAllocs (records : List BootAlloc) : BootAllocList :=
  records.foldl (fun list a => (bootAllocAdd list a.base a.pages a.type).2) []

/-- What is recorded is what was given to be recorded. -/
theorem recordAllocs_sublist (records : List BootAlloc) :
    (recordAllocs records).Sublist records := by
  induction records using List.reverseRecOn with
  | nil => exact .slnil
  | append_singleton records a ih =>
    have hstep : recordAllocs (records ++ [a]) =
        (bootAllocAdd (recordAllocs records) a.base a.pages a.type).2 := by
      rw [recordAllocs, foldl_append]
      rfl
    rw [hstep, bootAllocAdd]
    split_ifs
    · exact ih.trans (sublist_append_left _ _)
    · exact ih.append (Sublist.refl [a])

/-! ## Records of grants -/

/-- The interval of a record. -/
def BootAlloc.piece (a : BootAlloc) : Piece := (a.base.toNat, a.base.toNat + a.pages.toNat * 4096)

/-- The types of the records for memory of the loader. -/
def LoaderType (t : BitVec 32) : Prop :=
  t = BOOT_MEM_LOADER_RECLAIM ∨ t = BOOT_MEM_KERNEL ∨ t = BOOT_MEM_INITRD

/-- What the records have to be: whole pages of usable memory, apart from each other. -/
structure RecordsOk (regions : List BootMemRegion) (allocs : BootAllocList) : Prop where
  apart : (allocs.map BootAlloc.piece).Pairwise Piece.Apart
  piece : ∀ a ∈ allocs, HeapPiece regions a.piece
  pos : ∀ a ∈ allocs, 0 < a.pages.toNat
  type : ∀ a ∈ allocs, LoaderType a.type

theorem LoaderType.rank_pos {t : BitVec 32} (h : LoaderType t) : 0 < memMapRank t := by
  rcases h with rfl | rfl | rfl <;> decide

variable {regions final : List BootMemRegion} {allocs : BootAllocList} {a : BootAlloc}
  {fw : List MemMapInput} {page : ℕ}

/-- The pages of a record. -/
theorem RecordsOk.roundPages_eq (h : RecordsOk regions allocs) (ha : a ∈ allocs) :
    roundPages a.toInput = some (a.base.toNat / 4096, a.base.toNat / 4096 + a.pages.toNat) := by
  obtain ⟨hle, hfst, hsnd, hmin, hmax, -⟩ := h.piece a ha
  have hpos := h.pos a ha
  have htype : a.type ≠ BOOT_MEM_USABLE := by
    rcases h.type a ha with ht | ht | ht <;> rw [ht] <;> decide
  unfold BootAlloc.piece at hle hfst hsnd hmin hmax
  have hbytes : (a.pages * HANDOFF_PAGE_SIZE).toNat = a.pages.toNat * 4096 := by
    show a.pages.toNat * 4096 % 2^64 = _
    omega
  unfold roundPages BootAlloc.toInput
  dsimp only
  rw [if_neg htype, hbytes]
  rw [if_pos (by omega)]
  refine congrArg some (Prod.ext rfl ?_)
  omega

/-- The page belongs to the record. -/
def BootAlloc.HasPage (a : BootAlloc) (page : ℕ) : Prop :=
  a.base.toNat ≤ page * 4096 ∧ page * 4096 < a.base.toNat + a.pages.toNat * 4096

section

variable (h : RecordsOk regions allocs)

include h

theorem RecordsOk.covers_append {t : BitVec 32} :
    Covers (fw ++ allocs.map BootAlloc.toInput) page t ↔
      Covers fw page t ∨ ∃ a ∈ allocs, a.type = t ∧ a.HasPage page := by
  have hround : ∀ a ∈ allocs, (∃ p q, roundPages a.toInput = some (p, q) ∧ p ≤ page ∧ page < q) ↔
      a.HasPage page := by
    intro a ha
    have hfst := (h.piece a ha).fst_dvd
    unfold BootAlloc.piece at hfst
    unfold BootAlloc.HasPage
    rw [h.roundPages_eq ha]
    constructor
    · rintro ⟨p, q, hpq, hp, hq⟩
      obtain ⟨rfl, rfl⟩ := Prod.mk.inj (Option.some.inj hpq)
      omega
    · rintro ⟨hlo, hhi⟩
      exact ⟨_, _, rfl, by omega, by omega⟩
  constructor
  · rintro ⟨r, hr, ht, hrank, hcover⟩
    rcases mem_append.1 hr with hr | hr
    · exact .inl ⟨r, hr, ht, hrank, hcover⟩
    · obtain ⟨a, ha, rfl⟩ := mem_map.1 hr
      exact .inr ⟨a, ha, ht, (hround a ha).1 hcover⟩
  · rintro (⟨r, hr, ht, hrank, hcover⟩ | ⟨a, ha, rfl, hpage⟩)
    · exact ⟨r, mem_append_left _ hr, ht, hrank, hcover⟩
    · exact ⟨a.toInput, mem_append_right _ (mem_map_of_mem ha), rfl,
        (h.type a ha).rank_pos.le, (hround a ha).2 hpage⟩

/-- A page of no record keeps its type. -/
theorem RecordsOk.pageType_of_free (hfree : ∀ a ∈ allocs, ¬ a.HasPage page) (t : BitVec 32) :
    PageType (fw ++ allocs.map BootAlloc.toInput) page t ↔ PageType fw page t := by
  have hcovers : ∀ u, Covers (fw ++ allocs.map BootAlloc.toInput) page u ↔ Covers fw page u :=
    fun u => by
      rw [h.covers_append]
      exact ⟨fun hc => hc.resolve_right fun ⟨a, ha, _, hpage⟩ => hfree a ha hpage, .inl⟩
  simp only [PageType, hcovers]

/-- A page of a record has its type. -/
theorem RecordsOk.pageType_of_mem
    (hfw : NormalMap fw regions) (ha : a ∈ allocs) (hpage : a.HasPage page) :
    PageType (fw ++ allocs.map BootAlloc.toInput) page a.type := by
  refine ⟨h.covers_append.2 (.inr ⟨a, ha, rfl, hpage⟩), fun u hu => ?_⟩
  rcases h.covers_append.1 hu with hu | ⟨b, hb, rfl, hpage'⟩
  · -- The firmware has nothing but usable memory there.
    obtain ⟨r, hr, htype, hlo, hhi⟩ := (h.piece a ha).inside
    have husable : PageType fw page BOOT_MEM_USABLE :=
      (hfw.types page BOOT_MEM_USABLE).1 ⟨r, hr, ⟨Nat.le_trans hlo hpage.1,
        Nat.lt_of_lt_of_le hpage.2 hhi⟩, htype⟩
    have hle := husable.2 u hu
    have hpos := (h.type a ha).rank_pos
    have hzero : memMapRank BOOT_MEM_USABLE = 0 := rfl
    omega
  · -- No other record has the page.
    have hab : a = b := by
      by_contra hne
      have hapart : a.piece.Apart b.piece := (pairwise_map.1 h.apart).forall ha hb hne
      unfold BootAlloc.HasPage at hpage hpage'
      unfold Piece.Apart BootAlloc.piece at hapart
      omega
    rw [hab]

end

/-! ## The heap's grants -/

/-- The address and the size of a grant, as they are recorded. -/
def grantKey (g : BitVec 64 × BitVec 32) : BitVec 64 × BitVec 64 := (g.1, g.2.setWidth 64)

/-- The address and the size of a record. -/
def BootAlloc.key (a : BootAlloc) : BitVec 64 × BitVec 64 := (a.base, a.pages)

/-- The interval of an address and a size. -/
def keyPiece (k : BitVec 64 × BitVec 64) : Piece := (k.1.toNat, k.1.toNat + k.2.toNat * 4096)

theorem keyPiece_grantKey (g : BitVec 64 × BitVec 32) : keyPiece (grantKey g) = grantPiece g := by
  have hnat : (g.2.setWidth 64).toNat = g.2.toNat := by
    rw [BitVec.toNat_setWidth, Nat.mod_eq_of_lt (Nat.lt_trans g.2.isLt (by decide))]
  rw [keyPiece, grantKey, grantPiece, hnat]

/-- The sizes of the grants are those that were asked for. -/
theorem mem_allocSequence {heap : BootHeap} {requests : List (BitVec 32)}
    {g : BitVec 64 × BitVec 32} (h : g ∈ (allocSequence heap requests).1) : g.2 ∈ requests := by
  induction requests generalizing heap with
  | nil => exact absurd h not_mem_nil
  | cons pages requests ih =>
    unfold allocSequence at h
    cases ha : bootHeapAllocPages heap pages with
    | mk out heap' =>
      rw [ha] at h
      cases out with
      | none => exact mem_cons_of_mem _ (ih h)
      | some base =>
        rcases mem_cons.1 h with rfl | h
        · exact mem_cons_self ..
        · exact mem_cons_of_mem _ (ih h)

/-- Records of grants, each at most once. -/
theorem recordsOk_of_grants {heap : BootHeap}
    {grants : List (BitVec 64 × BitVec 32)} (h : HeapOk regions (grants.map grantPiece) heap)
    (hpos : ∀ g ∈ grants, 0 < g.2.toNat)
    (hgranted : (allocs.map BootAlloc.key).Subperm (grants.map grantKey))
    (htype : ∀ a ∈ allocs, LoaderType a.type) : RecordsOk regions allocs := by
  have hpieces : allocs.map BootAlloc.piece = (allocs.map BootAlloc.key).map keyPiece := by
    rw [map_map]
    rfl
  have hgrants : grants.map grantPiece = (grants.map grantKey).map keyPiece := by
    rw [map_map]
    exact map_congr_left fun g _ => (keyPiece_grantKey g).symm
  have hmem : ∀ a ∈ allocs, ∃ g ∈ grants, grantKey g = a.key := fun a ha =>
    mem_map.1 (hgranted.subset (mem_map_of_mem ha))
  refine ⟨?_, fun a ha => ?_, fun a ha => ?_, htype⟩
  · obtain ⟨l, hperm, hsub⟩ := hgranted
    have hapart := (pairwise_append.1 h.apart).1
    rw [hgrants] at hapart
    rw [hpieces]
    exact ((hperm.map keyPiece).pairwise_iff fun h => Or.symm h).1
      (hapart.sublist (hsub.map keyPiece))
  · obtain ⟨g, hg, hkey⟩ := hmem a ha
    have hpiece : a.piece = grantPiece g := by
      rw [← keyPiece_grantKey, hkey]
      rfl
    rw [hpiece]
    exact h.piece _ (mem_append_left _ (mem_map_of_mem hg))
  · obtain ⟨g, hg, hkey⟩ := hmem a ha
    have hpages : g.2.setWidth 64 = a.pages := congrArg Prod.snd hkey
    have := hpos g hg
    rw [← hpages, BitVec.toNat_setWidth, Nat.mod_eq_of_lt (Nat.lt_trans g.2.isLt (by decide))]
    exact this

/-! ## The final map -/

/-- Every record is inside one region of its type. -/
theorem RecordsOk.insideType (h : RecordsOk regions allocs) (hfw : NormalMap fw regions)
    (hfinal : NormalMap (fw ++ allocs.map BootAlloc.toInput) final)
    (ha : a ∈ allocs) : InsideType final a.base.toNat (a.pages.toNat * 4096) a.type := by
  obtain ⟨hok, hcanon, hbest⟩ := normalMap_iff.1 hfinal
  have hpos := h.pos a ha
  have hfst := (h.piece a ha).fst_dvd
  unfold BootAlloc.piece at hfst
  obtain ⟨run, hrun, hlo, hhi, hlabel⟩ := hcanon.exists_run
    (show a.base.toNat < a.base.toNat + a.pages.toNat * 4096 by omega)
    (fun x hx hx' => (hbest x a.type).2 (bestAt_iff_pageType.2
      (h.pageType_of_mem hfw ha (⟨by omega, by omega⟩ : a.HasPage (x / 4096)))))
  obtain ⟨r, hr, rfl⟩ := mem_map.1 hrun
  exact ⟨r, hr, hlabel, hlo, hhi⟩

/-- A range lies inside a record of the type. -/
def InRecord (allocs : BootAllocList) (base length : ℕ) (type : BitVec 32) : Prop :=
  ∃ a ∈ allocs, a.type = type ∧ a.base.toNat ≤ base ∧
    base + length ≤ a.base.toNat + a.pages.toNat * 4096

/-- What the loader refers to lies inside its records. The command line ends inside its record. -/
structure LoaderRefs (allocs : BootAllocList) (final : List BootMemRegion) (bi : BootInfo)
    (biAddr : BitVec 64) (memory : BitVec 64 → BitVec 8) : Prop where
  memMap : InRecord allocs bi.memMapPhys.toNat (final.length * sizeofBootMemRegion)
    BOOT_MEM_LOADER_RECLAIM
  bootInfo : InRecord allocs (biAddr - bi.hhdmBase).toNat sizeofBootInfo.toNat
    BOOT_MEM_LOADER_RECLAIM
  cmdline : ∃ n < BOOTINFO_CMDLINE_MAX, InRecord allocs bi.cmdlinePhys.toNat (n + 1)
    BOOT_MEM_LOADER_RECLAIM ∧ memory (bi.hhdmBase + bi.cmdlinePhys + BitVec.ofNat 64 n) = 0
  cmdline_ne : bi.cmdlinePhys ≠ 0
  kernel : InRecord allocs bi.kernelPhysBase.toNat bi.kernelSize.toNat BOOT_MEM_KERNEL
  initrd : bi.initrdSize ≠ 0 →
    InRecord allocs bi.initrdPhys.toNat bi.initrdSize.toNat BOOT_MEM_INITRD

/-- What lies inside a record lies inside a region. -/
theorem InRecord.insideType {base length : ℕ}
    {type : BitVec 32} (h : InRecord allocs base length type)
    (hinside : ∀ a ∈ allocs, InsideType final a.base.toNat (a.pages.toNat * 4096) a.type) :
    InsideType final base length type := by
  obtain ⟨a, ha, rfl, hlo, hhi⟩ := h
  exact (hinside a ha).mono hlo hhi

theorem LoaderRefs.inside {bi : BootInfo} {biAddr : BitVec 64} {memory : BitVec 64 → BitVec 8}
    (h : LoaderRefs allocs final bi biAddr memory) (hok : MemMapOk final)
    (hinside : ∀ a ∈ allocs, InsideType final a.base.toNat (a.pages.toNat * 4096) a.type) :
    RefsInside final bi biAddr memory := by
  have hmapIn := h.memMap.insideType hinside
  -- The array lies inside a region, so its size does not wrap.
  have hbytes : (BitVec.ofNat 64 (final.length * sizeofBootMemRegion)).toNat =
      final.length * sizeofBootMemRegion := by
    obtain ⟨r, hr, -, -, hhi⟩ := hmapIn
    have := (hok.region r hr).end_lt
    rw [BitVec.toNat_ofNat, Nat.mod_eq_of_lt (by omega)]
  rw [← hbytes] at hmapIn
  obtain ⟨n, hn, hcmdIn, hnul⟩ := h.cmdline
  obtain ⟨e, hfind, he⟩ :=
    bootFindContainingRegionEnd_of_inside hok (Nat.succ_pos n) (hcmdIn.insideType hinside)
  refine ⟨bootRangeInsideType_of_inside hok hmapIn,
    bootRangeInsideType_of_inside hok (h.bootInfo.insideType hinside), ⟨e, hfind, ?_⟩, h.cmdline_ne,
    bootRangeInsideType_of_inside hok (h.kernel.insideType hinside), fun ⟨hne, hnot⟩ =>
    hnot (bootRangeInsideType_of_inside hok ((h.initrd hne).insideType hinside))⟩
  refine any_eq_true.2 ⟨n, mem_range.2 ?_, decide_eq_true hnul⟩
  have hsub : (e - bi.cmdlinePhys).toNat = e.toNat - bi.cmdlinePhys.toNat := by
    rw [BitVec.toNat_sub]
    omega
  omega

/-- What the loader's heap grants are whole pages of usable memory between the bounds of the heap,
no two of which overlap. When some of the grants are recorded and the final map is built, every
record is inside one region of its type, every other page has the type that the firmware gives it,
and references into the records pass the tests of the kernel. -/
theorem bootHandoffFinalMap_exact {fw : List MemMapInput} {cap : ℕ} {regions : List BootMemRegion}
    (hlen : fw.length < 2^31) (hfw : memMapNormalize fw cap = (.ok, regions))
    {requests : List (BitVec 32)} (hreq : ∀ pages ∈ requests, 1 ≤ pages.toNat)
    {grants : List (BitVec 64 × BitVec 32)} {heap : BootHeap}
    (hgrants : allocSequence (bootHeapInit regions).2 requests = (grants, heap)) :
    (∀ g ∈ grants, HeapPiece regions (grantPiece g)) ∧
    (grants.map grantPiece).Pairwise Piece.Apart ∧
    ∀ records : List BootAlloc, (records.map BootAlloc.key).Subperm (grants.map grantKey) →
      (∀ a ∈ records, LoaderType a.type) →
      fw.length + (recordAllocs records).length < 2^31 → ∀ workCap outCap final,
      bootHandoffFinalMap fw (recordAllocs records) workCap outCap = (.ok, final) →
      (∀ a ∈ recordAllocs records, InsideType final a.base.toNat (a.pages.toNat * 4096) a.type) ∧
      (∀ page, (∀ a ∈ recordAllocs records, ¬ a.HasPage page) → ∀ t,
        (∃ r ∈ final, PageIn r page ∧ r.type = t) ↔ ∃ r ∈ regions, PageIn r page ∧ r.type = t) ∧
      ∀ bi biAddr memory, LoaderRefs (recordAllocs records) final bi biAddr memory →
        RefsInside final bi biAddr memory ∧ ((∃ r ∈ final, r.type = BOOT_MEM_USABLE) →
          bi.fb.phys = 0 → bootInfoCheckRefs bi biAddr memory final = .ok ()) := by
  have hmap := normalMap_of_memMapNormalize hlen hfw
  have hheap : HeapOk regions (grants.map grantPiece) heap := by
    have hseq := (bootHeapInit_ok hmap.ok).allocSequence requests
    rwa [hgrants, nil_append] at hseq
  have hpos : ∀ g ∈ grants, 0 < g.2.toNat := by
    intro g hg
    have hmem : g ∈ (allocSequence (bootHeapInit regions).2 requests).1 := by rw [hgrants]; exact hg
    exact hreq _ (mem_allocSequence hmem)
  refine ⟨fun g hg => hheap.piece _ (mem_append_left _ (mem_map_of_mem hg)),
    (pairwise_append.1 hheap.apart).1, fun records hgranted htype hcount workCap outCap final
      hfinal => ?_⟩
  have hsub := recordAllocs_sublist records
  have hrecords : RecordsOk regions (recordAllocs records) :=
    recordsOk_of_grants hheap hpos ((hsub.map BootAlloc.key).subperm.trans hgranted)
      fun a ha => htype a (hsub.subset ha)
  generalize recordAllocs records = allocs at hrecords hcount hfinal
  rw [bootHandoffFinalMap] at hfinal
  split_ifs at hfinal with hwork
  · cases hfinal
  have hfinalMap := normalMap_of_memMapNormalize (by simpa using hcount) hfinal
  have hinside : ∀ a ∈ allocs, InsideType final a.base.toNat (a.pages.toNat * 4096) a.type :=
    fun a ha => hrecords.insideType hmap hfinalMap ha
  refine ⟨hinside, fun page hfree t => ?_, fun bi biAddr memory hrefs =>
    have h := hrefs.inside hfinalMap.ok hinside
    ⟨h, h.check_ok⟩⟩
  rw [hfinalMap.types, hmap.types, hrecords.pageType_of_free hfree]

/-- One MiB of usable memory. -/
def oneMiB : MemMapInput := ⟨0x100000, 0x100000, BOOT_MEM_USABLE⟩

theorem memMapNormalize_oneMiB :
    memMapNormalize [oneMiB] 1 = (.ok, [⟨0x100000, 0x100000, BOOT_MEM_USABLE, 0⟩]) := by
  decide +kernel

theorem allocSequence_oneMiB :
    allocSequence (bootHeapInit [⟨0x100000, 0x100000, BOOT_MEM_USABLE, 0⟩]).2 [1] =
      ([(0x100000, 1)], [⟨0x101000, 0x200000⟩]) := by
  decide +kernel

/-- The kernel in the first page of it, and in the second one the map, the boot information, and an
empty command line. -/
theorem bootHandoffFinalMap_exact_kernel :
    bootInfoCheckRefs ⟨0x101000, ⟨0, 0, 0, 0, 0⟩, 0x100000, 0x1000, 0, 0, 0x101800, 0⟩ 0x101100
      (fun _ => 0) [⟨0x100000, 0x1000, BOOT_MEM_KERNEL, 0⟩,
        ⟨0x101000, 0x1000, BOOT_MEM_LOADER_RECLAIM, 0⟩, ⟨0x102000, 0xFE000, BOOT_MEM_USABLE, 0⟩] =
      .ok () := by
  have hlen : [oneMiB].length < 2^31 := by decide
  have hreq : ∀ pages ∈ [(1 : BitVec 32), 1], 1 ≤ pages.toNat := by simp
  have hseq : allocSequence (bootHeapInit [⟨0x100000, 0x100000, BOOT_MEM_USABLE, 0⟩]).2 [1, 1] =
      ([(0x100000, 1), (0x101000, 1)], [⟨0x102000, 0x200000⟩]) := by decide +kernel
  obtain ⟨-, -, hfinal⟩ := bootHandoffFinalMap_exact hlen memMapNormalize_oneMiB hreq hseq
  set k : BootAlloc := ⟨0x100000, 1, BOOT_MEM_KERNEL⟩
  set l : BootAlloc := ⟨0x101000, 1, BOOT_MEM_LOADER_RECLAIM⟩
  have hl : l ∈ recordAllocs [k, l] := by decide
  refine ((hfinal [k, l] (List.Subperm.refl _) (by simp [LoaderType, k, l]) (by decide) 3 3 _
    (by decide +kernel)).2.2 _ _ _ ⟨?_, ?_, ⟨0, by decide, ?_, rfl⟩, by decide, ?_, ?_⟩).2
    (by decide) rfl
  · exact ⟨l, hl, rfl, by decide, by decide⟩
  · exact ⟨l, hl, rfl, by decide, by decide⟩
  · exact ⟨l, hl, rfl, by decide, by decide⟩
  · exact ⟨k, by decide, rfl, by decide, by decide⟩
  · exact fun h => absurd rfl h

/-- With `2^31 - 1` ranges and one record, the counter of the points wraps in the second
normalisation only: the record is in no region. -/
theorem bootHandoffFinalMap_wraps : memMapNormalize (List.replicate (2^31 - 1) oneMiB) 1 =
        (.ok, [⟨0x100000, 0x100000, BOOT_MEM_USABLE, 0⟩]) ∧
      allocSequence (bootHeapInit [⟨0x100000, 0x100000, BOOT_MEM_USABLE, 0⟩]).2 [1] =
        ([(0x100000, 1)], [⟨0x101000, 0x200000⟩]) ∧
      bootHandoffFinalMap (List.replicate (2^31 - 1) oneMiB)
        (recordAllocs [⟨0x100000, 1, BOOT_MEM_KERNEL⟩]) (2^31) 4096 = (.ok, []) ∧
      ¬ InsideType [] 0x100000 4096 BOOT_MEM_KERNEL := by
  have hround : memMapRoundInput oneMiB = some (0x100000, 0x200000) := by decide
  refine ⟨?_, allocSequence_oneMiB, ?_, fun ⟨r, hr, _⟩ => absurd hr not_mem_nil⟩
  · have hone := normalMap_of_memMapNormalize (by decide) memMapNormalize_oneMiB
    have hmany : NormalMap (List.replicate (2^31 - 1) oneMiB)
        [⟨0x100000, 0x100000, BOOT_MEM_USABLE, 0⟩] := hone.of_mem_iff fun r => by
      rw [mem_singleton, mem_replicate]
      exact ⟨fun h => ⟨by decide, h⟩, And.right⟩
    have hlen : (List.replicate (2^31 - 1) oneMiB).length < 2^31 := by
      rw [length_replicate]
      decide
    rw [hmany.memMapNormalize_eq hlen]
    rfl
  · have hrecords : (recordAllocs [⟨0x100000, 1, BOOT_MEM_KERNEL⟩]).map BootAlloc.toInput =
        [⟨0x100000, 0x1000, BOOT_MEM_KERNEL⟩] := by decide
    have hpoints : collectPoints (List.replicate (2^31 - 1) oneMiB ++
        [⟨0x100000, 0x1000, BOOT_MEM_KERNEL⟩]) = [] := by
      have hlen := length_collectPoints_replicate hround (2^31 - 1)
      have hlt : (collectPoints (List.replicate (2^31 - 1) oneMiB)).length < 2^32 := by
        rw [hlen]
        exact Nat.mod_lt _ (by decide)
      rw [← length_eq_zero_iff, collectPoints_concat,
        show memMapRoundInput ⟨0x100000, 0x1000, BOOT_MEM_KERNEL⟩ = some (0x100000, 0x101000) by
          decide]
      have hlt' : (pushPoint (collectPoints (List.replicate (2^31 - 1) oneMiB)) 0x100000).length <
          2^32 := by
        rw [length_pushPoint hlt]
        exact Nat.mod_lt _ (by decide)
      rw [length_pushPoint hlt', length_pushPoint hlt, hlen]
      decide
    rw [bootHandoffFinalMap, hrecords, memMapNormalize, hpoints, length_replicate]
    rfl

end Bongos.Boot
