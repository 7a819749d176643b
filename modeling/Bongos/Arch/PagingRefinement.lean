import Bongos.Arch.PagingInvariant
import Bongos.Run

/-!
# The kernel's page tables are a map

`KvaMapping` is what a page of the kernel virtual area is mapped to, and `kvaMap` reads the map off
the tables. On it a successful `vmmMapKernel` adds a range, `vmmUnmapKernel` removes one, a failed
call changes nothing, and `vmmLookupKernel` reads one page (`vmm_refines`).

The loop of `archMapPages` maps page after page and may fail at each of them; what it has done by
then is an extension of the map (`mapLoop_spec`), and the loop that clears the leaves removes it
again (`clearLoop_spec`).
-/

namespace Bongos.Arch

open Mm RadixTable RangeMap Option

variable {s s' : Paging} {alloc : TableAnswers} {n t j : ℕ} {q : List ℕ}

/-! ## Calls -/

/-- `getOrAllocTable` fails with the memory manager and without a change, or returns the table below
an entry. -/
theorem getOrAllocTable_spec (hf : FreshTables alloc) (v : PagingInv s) (q : List ℕ) (j : ℕ)
    (hq : q.length ≤ 2) (hk : KvaPath (q ++ [j])) (ht : s.walk q = some t) :
    (∃ st, (∃ s1, alloc s1 = .error st) ∧ getOrAllocTable alloc s t j = (.error st, s)) ∨
      ∃ t' s', getOrAllocTable alloc s t j = (.ok t', s') ∧ KvaChange s s' (kvaPte s) ∧
        s'.walk (q ++ [j]) = some t' := by
  unfold getOrAllocTable
  dsimp only
  split_ifs with hp hps
  · exact absurd (v.small q j _ hq hk.of_append (entry_eq_some.2 ⟨t, ht, rfl⟩) hp) hps
  · refine .inr ⟨_, _, rfl, .refl v, ?_⟩
    rw [Paging.walk, walk_concat, entry_eq_some.2 ⟨t, ht, rfl⟩]
    exact if_pos ⟨hp, not_not.1 hps⟩
  · unfold allocTable
    cases ha : alloc s with
    | error st => exact .inl ⟨st, ⟨s, ha⟩, rfl⟩
    | ok phys => exact .inr ⟨_, _, rfl, v.attach hq hk ht (not_not.1 hp) (hf.fresh s phys ha)⟩

/-- The walk to a page table fails or returns it, and changes no leaf. -/
theorem getOrAllocPt_spec (hf : FreshTables alloc) (v : PagingInv s) (hn : KvaPage n) :
    (∃ st s', (∃ s1, alloc s1 = .error st) ∧
        getOrAllocPt alloc s (n * X86_PTE_SIZE_4K) = (.error st, s') ∧
        KvaChange s s' (kvaPte s)) ∨
      ∃ t s', getOrAllocPt alloc s (n * X86_PTE_SIZE_4K) = (.ok t, s') ∧
        KvaChange s s' (kvaPte s) ∧ s'.walk (ptPath n) = some t := by
  have hk : ∀ q, KvaPath (pml4Index (n * X86_PTE_SIZE_4K) :: q) := fun q => by
    simpa [KvaPath] using hn.slot
  unfold getOrAllocPt
  set i4 := pml4Index (n * X86_PTE_SIZE_4K)
  set i3 := pdptIndex (n * X86_PTE_SIZE_4K)
  set i2 := pdIndex (n * X86_PTE_SIZE_4K)
  obtain ⟨st, hst, h⟩ | ⟨pdpt, s1, h, c1, w1⟩ :=
    getOrAllocTable_spec hf v [] i4 (by simp) (hk _) walk_nil
  · exact .inl ⟨st, s, hst, by rw [h], .refl v⟩
  simp only [h]
  obtain ⟨st, hst, h⟩ | ⟨pd, s2, h, c2, w2⟩ :=
    getOrAllocTable_spec hf c1.inv [i4] i3 (by simp) (hk _) w1
  · exact .inl ⟨st, s1, hst, by rw [h], c1⟩
  rw [c1.pte] at c2
  simp only [h]
  obtain ⟨st, hst, h⟩ | ⟨pt, s3, h, c3, w3⟩ :=
    getOrAllocTable_spec hf c2.inv [i4, i3] i2 (by simp) (hk _) w2
  · exact .inl ⟨st, s2, hst, h, c1.trans c2⟩
  rw [c2.pte] at c3
  exact .inr ⟨pt, s3, h, (c1.trans c2).trans c3, w3⟩

/-- Why the mapping loop stops at a page: a table could not be allocated, or the page has a leaf. -/
def PageFailure (alloc : TableAnswers) (s : Paging) (n : ℕ) (st : Status) : Prop :=
  (∃ s₁, alloc s₁ = .error st) ∨ st = .errInvalid ∧ kvaPte s n ≠ none

/-- One round of the mapping loop maps a page that had no leaf, or fails and changes no leaf. -/
theorem mapPage_spec (hf : FreshTables alloc) (v : PagingInv s) (hn : KvaPage n) {e : ℕ}
    (he : e &&& X86_PTE_P ≠ 0) :
    (∃ st s', PageFailure alloc s n st ∧ mapPage alloc s (n * X86_PTE_SIZE_4K) e = (st, s') ∧
        KvaChange s s' (kvaPte s)) ∨
      ∃ s', mapPage alloc s (n * X86_PTE_SIZE_4K) e = (.ok, s') ∧ kvaPte s n = none ∧
        KvaChange s s' (Function.update (kvaPte s) n (some e)) := by
  unfold mapPage
  obtain ⟨st, s1, hst, h, c⟩ | ⟨pt, s1, h, c, w⟩ := getOrAllocPt_spec hf v hn
  · exact .inl ⟨st, s1, .inl hst, by rw [h], c⟩
  simp only [h]
  split_ifs with hp
  · refine .inl ⟨_, s1, .inr ⟨rfl, ?_⟩, rfl, c⟩
    have hp' : s1.mem pt (ptSlot n) &&& X86_PTE_P ≠ 0 := hp
    rw [← c.pte, kvaPte_of_walk hn w, filter_some, if_pos (by simp [hp'])]
    exact some_ne_none _
  · have c' := c.inv.writeLeaf hn w e
    rw [filter_some, if_pos (by simpa using he), c.pte] at c'
    have hp' : s1.mem pt (ptSlot n) &&& X86_PTE_P = 0 := not_not.1 hp
    refine .inr ⟨_, rfl, ?_, c.trans c'⟩
    rw [← c.pte, kvaPte_of_walk hn w, filter_some, if_neg (by simp [hp'])]

/-- The mapping loop maps the pages of the range one by one, up to the first that fails. -/
theorem mapLoop_spec (hf : FreshTables alloc) (b pa flags : ℕ) (hflags : flags &&& X86_PTE_P ≠ 0)
    (k : ℕ) : ∀ (off : ℕ) (s : Paging), PagingInv s → (∀ i < k, KvaPage (b + off + i)) →
    ∃ st s', ∃ d ≤ k, mapLoop alloc (b * X86_PTE_SIZE_4K) pa flags k (off * X86_PTE_SIZE_4K) s =
        (st, (off + d) * X86_PTE_SIZE_4K, s') ∧ (st = .ok ∧ d = k ∨ st ≠ .ok ∧
          ∃ i < k, PageFailure alloc s (b + off + i) st) ∧
      (∀ i < d, kvaPte s (b + off + i) = none) ∧
      KvaChange s s' (extend (kvaPte s) (b + off) d fun i =>
        ((pa + (off + i) * X86_PTE_SIZE_4K) &&& X86_PTE_ADDR_MASK) ||| flags) := by
  induction k with
  | zero =>
    intro off s v _
    exact ⟨.ok, s, 0, le_rfl, rfl, .inl ⟨rfl, rfl⟩, by simp, by simpa using KvaChange.refl v⟩
  | succ k ih =>
    intro off s v hkva
    set e := ((pa + off * X86_PTE_SIZE_4K) &&& X86_PTE_ADDR_MASK) ||| flags with he
    have hpe : e &&& X86_PTE_P ≠ 0 := by rwa [he, addr_or_land_flag (by decide)]
    have hva : b * X86_PTE_SIZE_4K + off * X86_PTE_SIZE_4K = (b + off) * X86_PTE_SIZE_4K :=
      (Nat.add_mul ..).symm
    unfold mapLoop
    rw [hva, ← he]
    obtain ⟨st, s1, hst, h, c⟩ | ⟨s1, h, hnone, c⟩ := mapPage_spec hf v (hkva 0 (by omega)) hpe
    · have hne : st ≠ .ok := by
        rcases hst with ⟨s1, hs1⟩ | ⟨rfl, -⟩
        · exact hf.error_ne_ok s1 st hs1
        · decide
      refine ⟨st, s1, 0, Nat.zero_le _, ?_, .inr ⟨hne, 0, by omega, hst⟩, by simp, by simpa using c⟩
      rw [Nat.add_zero] at h
      rw [h]
      cases st <;> first | rfl | exact absurd rfl hne
    · rw [Nat.add_zero] at h
      obtain ⟨st, s2, d, hd, h', hok, hnone', c'⟩ := ih (off + 1) s1 c.inv fun i hi => by
        have := hkva (i + 1) (by omega)
        rwa [show b + (off + 1) + i = b + off + (i + 1) by omega]
      rw [Nat.add_mul, Nat.one_mul] at h'
      have hsame : ∀ i, kvaPte s1 (b + (off + 1) + i) = kvaPte s (b + off + (i + 1)) := fun i => by
        rw [c.pte, show b + (off + 1) + i = b + off + (i + 1) by omega,
          Function.update_of_ne (by omega)]
      refine ⟨st, s2, d + 1, by omega, ?_, ?_, fun i hi => ?_, ?_⟩
      · rw [h]
        simp only [h', show off + 1 + d = off + (d + 1) by omega]
      · rcases hok with ⟨rfl, rfl⟩ | ⟨hne, i, hi, hfail⟩
        · exact .inl ⟨rfl, rfl⟩
        · refine .inr ⟨hne, i + 1, by omega, ?_⟩
          rwa [PageFailure, hsame] at hfail
      · cases i with
        | zero => exact hnone
        | succ i => rw [← hsame]; exact hnone' i (by omega)
      · rw [c.pte] at c'
        have hc := c.trans c'
        simp only [Nat.add_right_comm off 1] at hc
        rw [extend_succ]
        exact hc

/-- `clearLeaf` removes the leaf of a mapped page. -/
theorem clearLeaf_spec (v : PagingInv s) (hn : KvaPage n) (hm : kvaPte s n ≠ none) :
    ∃ s', clearLeaf s (n * X86_PTE_SIZE_4K) = .ok s' ∧
      KvaChange s s' (Function.update (kvaPte s) n none) := by
  unfold clearLeaf
  rw [findLeafPte_eq v]
  cases hw : s.walk (ptPath n) with
  | none => exact absurd (by rw [kvaPte_eq hn, hw]; rfl) hm
  | some t => exact ⟨_, rfl, v.writeLeaf hn hw 0⟩

/-- The loop that clears a range of mapped pages removes them. -/
theorem clearLoop_spec (k : ℕ) : ∀ (b : ℕ) (s : Paging), PagingInv s → (∀ i < k, KvaPage (b + i)) →
    (∀ i < k, kvaPte s (b + i) ≠ none) →
    ∃ s', clearLoop k (b * X86_PTE_SIZE_4K) s = .ok s' ∧
      KvaChange s s' (remove (kvaPte s) b k) := by
  induction k with
  | zero =>
    intro b s v _ _
    exact ⟨s, rfl, by simpa using KvaChange.refl v⟩
  | succ k ih =>
    intro b s v hkva hm
    obtain ⟨s1, h, c⟩ := clearLeaf_spec v (hkva 0 (by omega)) (hm 0 (by omega))
    obtain ⟨s2, h', c'⟩ := ih (b + 1) s1 c.inv
      (fun i hi => by have := hkva (i + 1) (by omega); rwa [Nat.add_right_comm, Nat.add_assoc])
      (fun i hi => by
        have := hm (i + 1) (by omega)
        rwa [c.pte, Nat.add_zero, Function.update_of_ne (by omega), Nat.add_right_comm,
          Nat.add_assoc])
    rw [Nat.add_mul, Nat.one_mul] at h'
    refine ⟨s2, ?_, ?_⟩
    · rw [Nat.add_zero] at h
      simp only [clearLoop, h]
      exact h'
    · rw [c.pte, Nat.add_zero, ← remove_succ] at c'
      exact c.trans c'

/-! ## Arguments -/

/-- A range that `vmmRangeInKva` accepts is a range of pages of the kernel virtual area. -/
theorem vmmRangeInKva_spec {va size : ℕ} (hsize : size < 2^64) (h : vmmRangeInKva va size = true) :
    va = va / X86_PTE_SIZE_4K * X86_PTE_SIZE_4K ∧ size = size / X86_PTE_SIZE_4K * X86_PTE_SIZE_4K ∧
      size ≠ 0 ∧ ∀ i < size / X86_PTE_SIZE_4K, KvaPage (va / X86_PTE_SIZE_4K + i) := by
  have hbase : VM_KVA_BASE = 0xFFFFC00000000000 := rfl
  have hend : VM_KVA_END = 0xFFFFE00000000000 := rfl
  have hpage : KVA_PAGE_SIZE = 4096 := rfl
  unfold vmmRangeInKva at h
  dsimp only at h
  split_ifs at h with h1 h2
  simp only [Bool.and_eq_true, decide_eq_true_eq, hbase, hend] at h
  rw [hpage] at h1
  simp only [KvaPage, size_4k, hbase, hend]
  refine ⟨by omega, by omega, by omega, fun i hi => by omega⟩

/-- No processor has more than 52 bits of physical address. -/
theorem physAddrLimit_lt (s : Paging) : physAddrLimit s < 2^52 := by
  have hpow : ∀ b ≤ 52, 1 <<< b - 1 < 2^52 := fun b hb => by
    have := Nat.pow_le_pow_right (n := 2) (by decide) hb
    omega
  exact hpow _ (by split_ifs <;> omega)

/-- What a request that passes the checks of `archMapPages` satisfies. -/
structure MapArgs (s : Paging) (pa size : ℕ) (flags : VmmFlags) : Prop where
  pa_le : pa + size ≤ 2^52
  not_exec : flags &&& VMM_EXEC = 0
  valid : flags &&& ~~~VMM_FLAGS_VALID = 0
  cache_ne : flags &&& VMM_CACHE_MASK ≠ VMM_CACHE_MASK
  text : flags &&& VMM_WRITE ≠ 0 → s.kernelRoPhysEnd ≤ pa ∨ pa + size ≤ s.kernelRoPhysStart
  alias_eq : ∀ i < size / X86_PTE_SIZE_4K, ∀ cache ∈ hhdmAliasCache s (pa + i * X86_PTE_SIZE_4K),
    cache = flags &&& VMM_CACHE_MASK

theorem archMapCheck_spec {va pa size : ℕ} {flags : VmmFlags} (hpa : pa < 2^64)
    (hsize : size < 2^64) (h : archMapCheck s va pa size flags = .ok) :
    MapArgs s pa size flags := by
  have hlimit := physAddrLimit_lt s
  unfold archMapCheck at h
  dsimp only at h
  split_ifs at h with h1 h2 h3 h4 h5 h6
  have hle : pa + size ≤ 2^52 := by omega
  refine ⟨hle, not_not.1 h3, by tauto, by tauto, fun hw => ?_, fun i hi cache hcache => ?_⟩
  · by_contra hno
    exact h5 ⟨hw, by omega, by omega⟩
  · by_contra hne
    exact h6 ⟨i, hi, by rw [aliasConflict, mem_def.1 hcache]; simpa using hne⟩

/-! ## The map -/

/-- The memory types of a mapping. -/
inductive CacheType where
  | wb
  | wc
  | uc
  deriving DecidableEq

/-- The cache bits of `VmmFlags` for a memory type. -/
def CacheType.bits : CacheType → VmmFlags
  | .wb => VMM_CACHE_WB
  | .wc => VMM_CACHE_WC
  | .uc => VMM_CACHE_UC

/-- What a page of the kernel virtual area is mapped to. -/
structure KvaMapping where
  /-- The address of the frame. -/
  pa : ℕ
  write : Bool
  cache : CacheType
  deriving DecidableEq

/-- The flags that describe a mapping. -/
def KvaMapping.flags (m : KvaMapping) : VmmFlags :=
  (if m.write then VMM_WRITE else 0) ||| m.cache.bits

/-- The mapping that a leaf stands for: its frame, its write bit, and its PAT index. -/
def mappingOf (e : ℕ) : KvaMapping where
  pa := e &&& X86_PTE_ADDR_MASK
  write := e &&& X86_PTE_W ≠ 0
  cache := if e &&& X86_PTE_PCD ≠ 0 then .uc else if e &&& X86_PTE_PWT ≠ 0 then .wc else .wb

/-- The mapping of a page that a request asks for. -/
def requested (pa : ℕ) (flags : VmmFlags) : KvaMapping where
  pa := pa
  write := flags &&& VMM_WRITE ≠ 0
  cache := if flags &&& VMM_CACHE_MASK = VMM_CACHE_UC then .uc
    else if flags &&& VMM_CACHE_MASK = VMM_CACHE_WC then .wc else .wb

/-- The map from pages of the kernel virtual area to mappings, read off the tables. -/
def kvaMap (s : Paging) (n : ℕ) : Option KvaMapping := (kvaPte s n).map mappingOf

/-- The cache type of a leaf as the source decodes it is that of its mapping. -/
theorem cacheOfEntry_eq (e : ℕ) : cacheOfEntry e = (mappingOf e).cache.bits := by
  unfold cacheOfEntry mappingOf
  split_ifs <;> rfl

/-- A request with valid flags is described by its flags. -/
theorem requested_flags {pa : ℕ} {flags : VmmFlags} (hexec : flags &&& VMM_EXEC = 0)
    (hvalid : flags &&& ~~~VMM_FLAGS_VALID = 0)
    (hcache : flags &&& VMM_CACHE_MASK ≠ VMM_CACHE_MASK) :
    (requested pa flags).flags = flags := by
  obtain ⟨k, hk⟩ := exists_low_bits flags
  have hflags : flags &&& 15 = flags := and_eq_of_and_not_eq_zero hvalid
  rw [hflags] at hk
  have hall : ∀ k : Fin 16, BitVec.ofNat 32 k &&& VMM_EXEC = 0 →
      BitVec.ofNat 32 k &&& VMM_CACHE_MASK ≠ VMM_CACHE_MASK →
      (requested 0 (BitVec.ofNat 32 k)).flags = BitVec.ofNat 32 k := by decide
  subst hk
  exact hall k hexec hcache

/-- The cache type of a request is in its flags. -/
theorem requested_cache {pa : ℕ} {flags : VmmFlags}
    (hcache : flags &&& VMM_CACHE_MASK ≠ VMM_CACHE_MASK) :
    (requested pa flags).cache.bits = flags &&& VMM_CACHE_MASK := by
  rcases cache_cases flags with h | h | h | h
  · simp only [requested, h]; rfl
  · simp only [requested, h]; rfl
  · simp only [requested, h]; rfl
  · exact absurd h hcache

/-- The leaf that `archMapPages` writes stands for the mapping it was asked for. -/
theorem mappingOf_leaf {pa : ℕ} {flags : VmmFlags} (hpa : pa % X86_PTE_SIZE_4K = 0)
    (hlt : pa < 2^52) :
    mappingOf ((pa &&& X86_PTE_ADDR_MASK) ||| leafFlags flags) = requested pa flags := by
  obtain ⟨hmask, -, -, hw, hpcd, hpwt⟩ := leafFlags_spec flags
  have hpa' : pa &&& X86_PTE_ADDR_MASK = pa := by
    have := land_two_pow_sub (k := 12) (by decide) hlt
    rw [show X86_PTE_ADDR_MASK = 2^52 - 2^12 by decide, this]
    rw [size_4k] at hpa
    omega
  have hW : X86_PTE_ADDR_MASK &&& X86_PTE_W = 0 := by decide
  have hPCD : X86_PTE_ADDR_MASK &&& X86_PTE_PCD = 0 := by decide
  have hPWT : X86_PTE_ADDR_MASK &&& X86_PTE_PWT = 0 := by decide
  simp only [mappingOf, requested, addr_or_land_mask hmask, addr_or_land_flag hW,
    addr_or_land_flag hPCD, addr_or_land_flag hPWT, hw, hpcd, hpwt]
  split_ifs <;> tauto

/-! ## The calls on the map -/

/-- Why `vmmMapKernel` fails: the range, the other arguments, or one of the pages. -/
def MapFailure (alloc : TableAnswers) (s : Paging) (va pa size : ℕ) (flags : VmmFlags)
    (st : Status) : Prop :=
  (st = .errInvalid ∧ (vmmRangeInKva va size = false ∨ pa % KVA_PAGE_SIZE ≠ 0)) ∨
    archMapCheck s va pa size flags = st ∨
    ∃ i < size / X86_PTE_SIZE_4K, PageFailure alloc s (va / X86_PTE_SIZE_4K + i) st

/-- `vmmMapKernel` adds a range of pages without leaves, or fails and changes no leaf. -/
theorem vmmMapKernel_spec (hf : FreshTables alloc) (v : PagingInv s) (hact : s.tablesActive = true)
    (va : ℕ) {pa size : ℕ} (flags : VmmFlags) (hpa : pa < 2^64) (hsize : size < 2^64) :
    ∃ st s', vmmMapKernel alloc s va pa size flags = .ok (st, s') ∧
      ((st ≠ .ok ∧ MapFailure alloc s va pa size flags st ∧ KvaChange s s' (kvaPte s)) ∨
        (st = .ok ∧ vmmRangeInKva va size = true ∧ pa % KVA_PAGE_SIZE = 0 ∧
          MapArgs s pa size flags ∧
          (∀ i < size / X86_PTE_SIZE_4K, kvaPte s (va / X86_PTE_SIZE_4K + i) = none) ∧
          KvaChange s s' (extend (kvaPte s) (va / X86_PTE_SIZE_4K) (size / X86_PTE_SIZE_4K) fun i =>
            ((pa + i * X86_PTE_SIZE_4K) &&& X86_PTE_ADDR_MASK) ||| leafFlags flags))) := by
  unfold vmmMapKernel
  rw [hact, Bool.not_true, if_neg Bool.false_ne_true]
  split_ifs with hargs
  · exact ⟨_, s, rfl, .inl ⟨by decide, .inl ⟨rfl, by simpa using hargs⟩, .refl v⟩⟩
  have hrange : vmmRangeInKva va size = true := by simpa using fun h => hargs (.inl h)
  have hpage : pa % KVA_PAGE_SIZE = 0 := not_not.1 fun h => hargs (.inr h)
  obtain ⟨hva, -, -, hkva⟩ := vmmRangeInKva_spec hsize hrange
  unfold archMapPages
  rw [hact, Bool.not_true, if_neg Bool.false_ne_true]
  by_cases hcheck : archMapCheck s va pa size flags = .ok
  swap
  · refine ⟨archMapCheck s va pa size flags, s, ?_, .inl ⟨hcheck, .inr (.inl rfl), .refl v⟩⟩
    cases h : archMapCheck s va pa size flags <;> first | rfl | exact absurd h hcheck
  have hargs := archMapCheck_spec hpa hsize hcheck
  obtain ⟨st, s1, d, hd, hloop, hst, hnone, c⟩ := mapLoop_spec hf (va / X86_PTE_SIZE_4K) pa
    (leafFlags flags) (leafFlags_spec flags).2.1 (size / X86_PTE_SIZE_4K) 0 s v hkva
  simp only [← hva, Nat.zero_mul, Nat.zero_add, Nat.add_zero] at hloop hnone c hst
  rw [hcheck]
  rw [hloop]
  rcases hst with ⟨rfl, rfl⟩ | ⟨hne, hfail⟩
  · exact ⟨.ok, s1, rfl, .inr ⟨rfl, hrange, hpage, hargs, hnone, c⟩⟩
  -- The pages mapped so far are cleared again.
  have hmapped : ∀ i < d, kvaPte s1 (va / X86_PTE_SIZE_4K + i) ≠ none := fun i hi => by
    rw [c.pte, extend_apply_add hi]
    exact some_ne_none _
  obtain ⟨s2, hclear, c'⟩ := clearLoop_spec d (va / X86_PTE_SIZE_4K) s1 c.inv
    (fun i hi => hkva i (by omega)) hmapped
  rw [c.pte, remove_extend hnone] at c'
  rw [← hva] at hclear
  refine ⟨st, s2, ?_, .inl ⟨hne, .inr (.inr hfail), c.trans c'⟩⟩
  rw [← Nat.mul_div_cancel d (by decide : 0 < X86_PTE_SIZE_4K)] at hclear
  cases st <;> first | exact absurd rfl hne | (simp only [hclear]; rfl)

/-- Numbers of whole pages pass the alignment checks of `paging.c`. -/
theorem aligned_or (a b : ℕ) :
    (a * X86_PTE_SIZE_4K ||| b * X86_PTE_SIZE_4K) &&& (X86_PTE_SIZE_4K - 1) = 0 := by
  have hmask : ∀ x, x &&& (X86_PTE_SIZE_4K - 1) = x % X86_PTE_SIZE_4K := fun x =>
    Nat.and_two_pow_sub_one_eq_mod x 12
  rw [Nat.and_or_distrib_right, hmask, hmask, Nat.mul_mod_left, Nat.mul_mod_left]
  rfl

/-- The lookups of `archUnmapPages` see whether a page has a leaf. -/
theorem absent_iff (v : PagingInv s) (hn : KvaPage n) :
    leafPresent s (n * X86_PTE_SIZE_4K) = false ↔ kvaPte s n = none := by
  rw [leafPresent, findLeafPte_eq v, kvaPte_eq hn]
  cases s.walk (ptPath n) with
  | none => simp
  | some t => simp [filter_some]

/-- `vmmUnmapKernel` removes a range of pages with leaves, or changes nothing. -/
theorem vmmUnmapKernel_spec (v : PagingInv s) (hact : s.tablesActive = true) (va : ℕ) {size : ℕ}
    (hsize : size < 2^64) :
    (vmmRangeInKva va size = false ∧ vmmUnmapKernel s va size = .ok (.errInvalid, s)) ∨
      (vmmRangeInKva va size = true ∧
        (∃ i < size / X86_PTE_SIZE_4K, kvaPte s (va / X86_PTE_SIZE_4K + i) = none) ∧
        vmmUnmapKernel s va size = .ok (.errNotFound, s)) ∨
      (vmmRangeInKva va size = true ∧
        (∀ i < size / X86_PTE_SIZE_4K, kvaPte s (va / X86_PTE_SIZE_4K + i) ≠ none) ∧
        ∃ s', vmmUnmapKernel s va size = .ok (.ok, s') ∧
          KvaChange s s' (remove (kvaPte s) (va / X86_PTE_SIZE_4K) (size / X86_PTE_SIZE_4K))) := by
  unfold vmmUnmapKernel
  rw [hact, Bool.not_true, if_neg Bool.false_ne_true]
  split_ifs with hrange
  · exact .inl ⟨by simpa using hrange, rfl⟩
  have hrange : vmmRangeInKva va size = true := by simpa using hrange
  obtain ⟨hva, hsz, hne, hkva⟩ := vmmRangeInKva_spec hsize hrange
  unfold archUnmapPages
  have hall : ∀ i, va + i * X86_PTE_SIZE_4K = (va / X86_PTE_SIZE_4K + i) * X86_PTE_SIZE_4K :=
    fun i => by rw [Nat.add_mul, ← hva]
  have halign : (va ||| size) &&& (X86_PTE_SIZE_4K - 1) = 0 := by
    rw [hva, hsz]
    exact aligned_or _ _
  rw [hact, Bool.not_true, if_neg Bool.false_ne_true, if_neg (by simp [halign, hne])]
  split_ifs with habsent
  · obtain ⟨i, hi, hpte⟩ := habsent
    rw [hall] at hpte
    exact .inr (.inl ⟨hrange, ⟨i, hi, (absent_iff v (hkva i hi)).1 hpte⟩, rfl⟩)
  · have hmapped : ∀ i < size / X86_PTE_SIZE_4K, kvaPte s (va / X86_PTE_SIZE_4K + i) ≠ none :=
      fun i hi hnone => habsent ⟨i, hi, by rw [hall]; exact (absent_iff v (hkva i hi)).2 hnone⟩
    obtain ⟨s', h, c⟩ := clearLoop_spec _ _ s v hkva hmapped
    rw [← hva] at h
    exact .inr (.inr ⟨hrange, hmapped, s', by rw [h]; rfl, c⟩)

/-- `vmmLookupKernel` reads the map, if no leaf of the kernel virtual area is executable. -/
theorem vmmLookupKernel_spec (v : PagingInv s) (hact : s.tablesActive = true)
    (hnx : ∀ e, kvaPte s n = some e → e &&& X86_PTE_NX ≠ 0) (hn : KvaPage n) :
    vmmLookupKernel s (n * X86_PTE_SIZE_4K) = .ok (match kvaMap s n with
      | none => .error .errNotFound
      | some m => .ok (m.pa, m.flags)) := by
  have halign : n * X86_PTE_SIZE_4K &&& (X86_PTE_SIZE_4K - 1) = 0 := by
    simpa using aligned_or n 0
  unfold vmmLookupKernel archLookupKernel
  rw [hact, Bool.not_true, if_neg Bool.false_ne_true, if_neg Bool.false_ne_true,
    if_neg (by simp [halign]), findLeafPte_eq v, kvaMap]
  cases hw : s.walk (ptPath n) with
  | none => rw [kvaPte_eq hn, hw]; rfl
  | some t =>
    have hpte := kvaPte_of_walk hn hw
    set e := s.mem t (ptSlot n)
    dsimp only [map_some]
    by_cases hp : e &&& X86_PTE_P = 0
    · rw [hpte, if_pos hp, filter_some, if_neg (by simp [hp])]
      rfl
    · rw [filter_some, if_pos (by simp [hp])] at hpte
      have hx : ¬ (e &&& X86_PTE_NX = 0) := hnx e hpte
      rw [hpte, if_neg hp, if_neg hx, cacheOfEntry_eq]
      simp [KvaMapping.flags, mappingOf, e]

/-- The tables when they are activated: every table has one place, neither the root table nor a
table of the kernel virtual area has a large leaf, and nothing is mapped in the area. -/
structure KernelTables (s : Paging) : Prop where
  active : s.tablesActive = true
  paging : PagingInv s
  unmapped : ∀ n, kvaPte s n = none

/-- One call of `vmmMapKernel` or `vmmUnmapKernel`, with any arguments and any answers of the memory
manager. -/
inductive PagingStep : Paging → Paging → Prop
  | map {s s' : Paging} {alloc : TableAnswers} {va pa size : BitVec 64} {flags : VmmFlags}
      {st : Status} (hf : FreshTables alloc)
      (h : vmmMapKernel alloc s va.toNat pa.toNat size.toNat flags = .ok (st, s')) : PagingStep s s'
  | unmap {s s' : Paging} {va size : BitVec 64} {st : Status}
      (h : vmmUnmapKernel s va.toNat size.toNat = .ok (st, s')) : PagingStep s s'

/-- What holds of the tables after every call. -/
structure KernelInv (s : Paging) : Prop where
  active : s.tablesActive = true
  paging : PagingInv s
  /-- No leaf of the kernel virtual area is executable. -/
  nx : ∀ n e, kvaPte s n = some e → e &&& X86_PTE_NX ≠ 0

theorem KernelTables.inv (h : KernelTables s) : KernelInv s :=
  ⟨h.active, h.paging, fun n e he => by simp [h.unmapped] at he⟩

/-- A leaf that a request wrote, in a state that accepted it. -/
def NewLeaf (s : Paging) (e : ℕ) : Prop :=
  ∃ pa size flags, MapArgs s pa size flags ∧ pa % X86_PTE_SIZE_4K = 0 ∧
    ∃ i < size / X86_PTE_SIZE_4K,
      e = ((pa + i * X86_PTE_SIZE_4K) &&& X86_PTE_ADDR_MASK) ||| leafFlags flags

/-- A call changes tables of the kernel virtual area only, and every leaf after it was there before
or is one that it wrote. -/
theorem KernelInv.change (i : KernelInv s) (h : PagingStep s s') : KvaChange s s' (kvaPte s') ∧
    ∀ n e, kvaPte s' n = some e → kvaPte s n = some e ∨ NewLeaf s e := by
  cases h with
  | @map alloc va pa size flags st hf h =>
    obtain ⟨st', s1, h', hcases⟩ :=
      vmmMapKernel_spec hf i.paging i.active va.toNat flags pa.isLt size.isLt
    rw [h] at h'
    cases h'
    rcases hcases with ⟨-, -, c⟩ | ⟨-, -, hpage, hargs, -, c⟩
    · exact ⟨c.pte ▸ c, fun n e he => .inl (by rwa [c.pte] at he)⟩
    · refine ⟨c.pte ▸ c, fun n e he => ?_⟩
      rw [c.pte] at he
      unfold extend at he
      split_ifs at he with hn
      · cases he
        exact .inr ⟨pa.toNat, size.toNat, flags, hargs, hpage, _, by omega, rfl⟩
      · exact .inl he
  | @unmap va size st h =>
    obtain ⟨-, h'⟩ | ⟨-, -, h'⟩ | ⟨-, -, s1, h', c⟩ :=
      vmmUnmapKernel_spec i.paging i.active va.toNat size.isLt
    all_goals
      rw [h] at h'
      cases h'
    · exact ⟨.refl i.paging, fun _ _ => .inl⟩
    · exact ⟨.refl i.paging, fun _ _ => .inl⟩
    · refine ⟨c.pte ▸ c, fun n e he => ?_⟩
      rw [c.pte] at he
      unfold remove at he
      split_ifs at he
      exact .inl he

/-- No leaf that a request wrote is executable. -/
theorem NewLeaf.nx {e : ℕ} (h : NewLeaf s e) : e &&& X86_PTE_NX ≠ 0 := by
  obtain ⟨pa, size, flags, -, -, j, -, rfl⟩ := h
  rw [addr_or_land_flag (by decide)]
  exact (leafFlags_spec flags).2.2.1

/-- Every call keeps the invariant. -/
theorem KernelInv.step (i : KernelInv s) (h : PagingStep s s') : KernelInv s' := by
  obtain ⟨c, hleaf⟩ := i.change h
  refine ⟨by rw [c.only.same]; exact i.active, c.inv, fun n e he => ?_⟩
  rcases hleaf n e he with hold | hnew
  · exact i.nx n e hold
  · exact hnew.nx

/-- What a call of `vmmMapKernel` does to the map: it adds the pages of the range, which had no
mapping, or it fails for a reason and changes nothing. -/
def MapRefines (alloc : TableAnswers) (s : Paging) (va pa size : ℕ) (flags : VmmFlags) (st : Status)
    (s' : Paging) : Prop :=
  (st = .ok ∧ (∀ i < size / X86_PTE_SIZE_4K, kvaMap s (va / X86_PTE_SIZE_4K + i) = none) ∧
      kvaMap s' = extend (kvaMap s) (va / X86_PTE_SIZE_4K) (size / X86_PTE_SIZE_4K)
        (fun i => requested (pa + i * X86_PTE_SIZE_4K) flags) ∧
      ∀ i < size / X86_PTE_SIZE_4K, vmmLookupKernel s' (va + i * X86_PTE_SIZE_4K) =
        .ok (.ok (pa + i * X86_PTE_SIZE_4K, flags))) ∨
    (st ≠ .ok ∧ MapFailure alloc s va pa size flags st ∧ kvaMap s' = kvaMap s)

/-- What a call of `vmmUnmapKernel` does to the map: it removes the pages of the range, or, if the
range is bad or one of the pages has no mapping, it changes nothing. -/
def UnmapRefines (s : Paging) (va size : ℕ) (st : Status) (s' : Paging) : Prop :=
  (vmmRangeInKva va size = false ∧ st = .errInvalid ∧ s' = s) ∨
    (vmmRangeInKva va size = true ∧
      (∃ i < size / X86_PTE_SIZE_4K, kvaMap s (va / X86_PTE_SIZE_4K + i) = none) ∧
      st = .errNotFound ∧ s' = s) ∨
    (vmmRangeInKva va size = true ∧
      (∀ i < size / X86_PTE_SIZE_4K, kvaMap s (va / X86_PTE_SIZE_4K + i) ≠ none) ∧ st = .ok ∧
      kvaMap s' = remove (kvaMap s) (va / X86_PTE_SIZE_4K) (size / X86_PTE_SIZE_4K))

theorem kvaMap_eq_none : kvaMap s n = none ↔ kvaPte s n = none := map_eq_none_iff

/-- A change of the leaves is a change of the map. -/
theorem kvaMap_congr {m : ℕ → Option ℕ} (h : kvaPte s = m) :
    kvaMap s = fun n => (m n).map mappingOf := by
  funext n
  rw [kvaMap, h]

theorem KernelInv.mapRefines (i : KernelInv s) (hf : FreshTables alloc) (va pa size : BitVec 64)
    (flags : VmmFlags) : ∃ st s',
      vmmMapKernel alloc s va.toNat pa.toNat size.toNat flags = .ok (st, s') ∧
        MapRefines alloc s va.toNat pa.toNat size.toNat flags st s' := by
  obtain ⟨st, s', h, hcases⟩ :=
    vmmMapKernel_spec hf i.paging i.active va.toNat flags pa.isLt size.isLt
  have i' : KernelInv s' := i.step (.map hf h)
  refine ⟨st, s', h, ?_⟩
  rcases hcases with ⟨hne, hfail, c⟩ | ⟨rfl, hrange, hpage, hargs, hnone, c⟩
  · exact .inr ⟨hne, hfail, kvaMap_congr c.pte⟩
  -- The leaf of every page of the range stands for what was asked for.
  have hleaf : ∀ j < size.toNat / X86_PTE_SIZE_4K,
      mappingOf (((pa.toNat + j * X86_PTE_SIZE_4K) &&& X86_PTE_ADDR_MASK) ||| leafFlags flags) =
        requested (pa.toNat + j * X86_PTE_SIZE_4K) flags := by
    intro j hj
    have hle := hargs.pa_le
    have hpg : KVA_PAGE_SIZE = 4096 := rfl
    rw [hpg] at hpage
    refine mappingOf_leaf ?_ ?_ <;> rw [size_4k] at hj ⊢ <;> omega
  have hmap : kvaMap s' = extend (kvaMap s) (va.toNat / X86_PTE_SIZE_4K)
      (size.toNat / X86_PTE_SIZE_4K) fun j => requested (pa.toNat + j * X86_PTE_SIZE_4K) flags := by
    rw [kvaMap_congr c.pte]
    funext n
    unfold extend
    split_ifs with hn
    · exact congrArg some (hleaf _ (by omega))
    · rfl
  refine .inl ⟨rfl, fun j hj => kvaMap_eq_none.2 (hnone j hj), hmap, fun j hj => ?_⟩
  obtain ⟨hva, -, -, hkva⟩ := vmmRangeInKva_spec size.isLt hrange
  have hlook := vmmLookupKernel_spec i'.paging i'.active (i'.nx _) (hkva j hj)
  rw [hmap, extend_apply_add hj, Nat.add_mul, ← hva] at hlook
  rw [hlook]
  simp only [requested_flags hargs.not_exec hargs.valid hargs.cache_ne]
  rfl

theorem KernelInv.unmapRefines (i : KernelInv s) (va size : BitVec 64) : ∃ st s',
    vmmUnmapKernel s va.toNat size.toNat = .ok (st, s') ∧
      UnmapRefines s va.toNat size.toNat st s' := by
  obtain ⟨hr, h⟩ | ⟨hr, ⟨j, hj, hnone⟩, h⟩ | ⟨hr, hmapped, s', h, c⟩ :=
    vmmUnmapKernel_spec i.paging i.active va.toNat size.isLt
  · exact ⟨_, _, h, .inl ⟨hr, rfl, rfl⟩⟩
  · exact ⟨_, _, h, .inr (.inl ⟨hr, ⟨j, hj, kvaMap_eq_none.2 hnone⟩, rfl, rfl⟩)⟩
  · refine ⟨_, _, h, .inr (.inr ⟨hr, fun j hj => mt kvaMap_eq_none.1 (hmapped j hj), rfl, ?_⟩)⟩
    rw [kvaMap_congr c.pte]
    funext n
    unfold remove
    split_ifs <;> rfl

/-- **The kernel's page tables refine a map.** After every run of calls from tables with nothing
mapped in the kernel virtual area, whatever the memory manager answered: `vmmMapKernel` adds a range
of unmapped pages to the map or changes nothing, `vmmUnmapKernel` removes a range of mapped pages or
changes nothing, and `vmmLookupKernel` reads the map. -/
theorem vmm_refines {s₀ : Paging} (h₀ : KernelTables s₀) (hrun : Run PagingStep s₀ s)
    (hf : FreshTables alloc) :
    (∀ (va pa size : BitVec 64) (flags : VmmFlags), ∃ st s',
      vmmMapKernel alloc s va.toNat pa.toNat size.toNat flags = .ok (st, s') ∧
        MapRefines alloc s va.toNat pa.toNat size.toNat flags st s') ∧
      (∀ va size : BitVec 64, ∃ st s', vmmUnmapKernel s va.toNat size.toNat = .ok (st, s') ∧
        UnmapRefines s va.toNat size.toNat st s') ∧
      ∀ n, KvaPage n → vmmLookupKernel s (n * X86_PTE_SIZE_4K) = .ok (match kvaMap s n with
        | none => .error .errNotFound
        | some m => .ok (m.pa, m.flags)) := by
  have i : KernelInv s := hrun.invariant h₀.inv KernelInv.step
  exact ⟨i.mapRefines hf, i.unmapRefines, fun n hn =>
    vmmLookupKernel_spec i.paging i.active (i.nx n) hn⟩

/-- Tables with one table below each slot of the kernel half, and below slot 384, the first of the
kernel virtual area, a path of tables to the page table of its first page, whose leaf is `leaf`. The
text of the kernel is the frame at 2 MiB. -/
def bootTables (leaf : ℕ) : Paging where
  mem t i :=
    if t = 0x1000 then
      if 256 ≤ i ∧ i < 512 then tableEntry (0x100000 + i * 0x1000) else 0
    else if i ≠ 0 then 0
    else if t = 0x280000 then tableEntry 0x2000
    else if t = 0x2000 then tableEntry 0x3000
    else if t = 0x3000 then leaf
    else 0
  kernelPml4Phys := 0x1000
  tablesActive := true
  kernelRoPhysStart := 0x200000
  kernelRoPhysEnd := 0x201000
  kernelTextStart := 0xFFFFFFFF80000000
  kernelTextEnd := 0xFFFFFFFF80001000
  cpuidMaxExtended := 0x80000008
  cpuidAddressSize := 40
  cr0Wp := true
  eferNxe := true

/-- The links of these tables without a leaf. -/
theorem bootTables_link {t i b : ℕ} (h : link ((bootTables 0).mem t i) = some b) :
    (t = 0x1000 ∧ 256 ≤ i ∧ i < 512 ∧ b = 0x100000 + i * 0x1000) ∨
      (t = 0x280000 ∧ i = 0 ∧ b = 0x2000) ∨ (t = 0x2000 ∧ i = 0 ∧ b = 0x3000) := by
  have hphys : ∀ i < 512, tableAt (0x100000 + i * 0x1000) = 0x100000 + i * 0x1000 := by
    decide +kernel
  have h2 : tableAt 0x2000 = 0x2000 := by decide
  have h3 : tableAt 0x3000 = 0x3000 := by decide
  simp only [bootTables] at h
  split_ifs at h with h1 hi hi' h4 h5
  · rw [link_table, hphys i hi.2, Option.some.injEq] at h
    exact .inl ⟨h1, hi.1, hi.2, h.symm⟩
  · cases h
  · cases h
  · rw [link_table, h2, Option.some.injEq] at h
    exact .inr (.inl ⟨h4, not_not.1 hi', h.symm⟩)
  · rw [link_table, h3, Option.some.injEq] at h
    exact .inr (.inr ⟨h5, not_not.1 hi', h.symm⟩)
  · cases h
  · cases h

theorem bootTables_inv : PagingInv (bootTables 0) where
  unshared := by
    have hroot : (bootTables 0).root = 0x1000 := by decide
    refine unshared_of_inj (fun t i h => ?_) fun h h' => ?_
    · have := bootTables_link h
      omega
    · have := bootTables_link h
      have := bootTables_link h'
      omega
  small q j e _ _ he _ := by
    have hps : ∀ phys, tableEntry phys &&& X86_PTE_PS = 0 :=
      fun phys => (tableEntry_spec phys).2.2.1
    obtain ⟨t, -, rfl⟩ := entry_eq_some.1 he
    simp only [bootTables]
    split_ifs <;> simp [hps]

theorem bootTables_kernel : KernelTables (bootTables 0) where
  active := rfl
  paging := bootTables_inv
  unmapped n := by
    refine eq_none_iff_forall_ne_some.2 fun e he => ?_
    unfold kvaPte at he
    split_ifs at he
    obtain ⟨he, hp⟩ := filter_eq_some_iff.1 he
    obtain ⟨t, ht, rfl⟩ := entry_eq_some.1 he
    -- A path of three links ends at the page table, which is empty.
    obtain ⟨t₁, h₁, ht⟩ := bind_eq_some_iff.1 ht
    obtain ⟨t₂, h₂, ht⟩ := bind_eq_some_iff.1 ht
    obtain ⟨t₃, h₃, ht⟩ := bind_eq_some_iff.1 ht
    cases ht
    have hroot : (bootTables 0).root = 0x1000 := by decide
    have := bootTables_link h₁
    have := bootTables_link h₂
    have := bootTables_link h₃
    obtain rfl : t = 0x3000 := by omega
    simp [bootTables] at hp

theorem noTables_fresh : FreshTables fun _ => .error .errNoMemory :=
  ⟨fun _ _ h => (nomatch h), fun _ _ h => by cases h; decide⟩

/-- A memory manager that has one page for a table. -/
noncomputable def onePage : TableAnswers := fun s =>
  open Classical in if Unused link 3 s.mem s.root 0x4000 then .ok 0x4000 else .error .errNoMemory

theorem onePage_fresh : FreshTables onePage := by
  refine ⟨fun s phys h => ?_, fun s st h => ?_⟩ <;> unfold onePage at h <;>
    split_ifs at h with hu <;> cases h
  · exact hu
  · decide

theorem onePage_eq : onePage (bootTables 0) = .ok 0x4000 := by
  refine if_pos fun p _ hp => ?_
  rcases List.eq_nil_or_concat p with rfl | ⟨q, i, rfl⟩
  · cases hp
  · rw [List.concat_eq_append, walk_concat] at hp
    obtain ⟨e, he, hlink⟩ := bind_eq_some_iff.1 hp
    obtain ⟨t, -, rfl⟩ := entry_eq_some.1 he
    have := bootTables_link hlink
    omega

/-- A request for one uncached page, the first one that the page table does not reach. -/
def oneUncachedPage (alloc : TableAnswers) : Except PagingFault (Status × Paging) :=
  vmmMapKernel alloc (bootTables 0) (BitVec.ofNat 64 (VM_KVA_BASE + 0x200000)).toNat
    (0x300000 : BitVec 64).toNat (0x1000 : BitVec 64).toNat (VMM_WRITE ||| VMM_CACHE_UC)

/-- The memory manager is asked once, for the page table. -/
theorem oneUncachedPage_ok : ∃ s', oneUncachedPage onePage = .ok (.ok, s') := by
  have hpt : ∀ alloc, getOrAllocPt alloc (bootTables 0) (VM_KVA_BASE + 0x200000) =
      getOrAllocTable alloc (bootTables 0) 0x2000 1 := fun _ => rfl
  have hloop : ∀ pa flags, mapLoop onePage (VM_KVA_BASE + 0x200000) pa flags 1 0 (bootTables 0) =
      mapLoop (fun _ => .ok 0x4000) (VM_KVA_BASE + 0x200000) pa flags 1 0 (bootTables 0) := by
    intro pa flags
    simp only [mapLoop, mapPage, Nat.add_zero, hpt, getOrAllocTable, allocTable, onePage_eq]
  have hva : (BitVec.ofNat 64 (VM_KVA_BASE + 0x200000)).toNat = VM_KVA_BASE + 0x200000 := by decide
  have hrun : oneUncachedPage onePage = oneUncachedPage fun _ => .ok 0x4000 := by
    unfold oneUncachedPage vmmMapKernel archMapPages
    simp only [show (0x1000 : BitVec 64).toNat / X86_PTE_SIZE_4K = 1 by decide, hva, hloop]
  have hok : (oneUncachedPage fun _ => .ok 0x4000).map Prod.fst = .ok .ok := by decide +kernel
  rw [hrun]
  cases h : oneUncachedPage fun _ => .ok 0x4000 with
  | error f => rw [h] at hok; cases hok
  | ok r =>
    rw [h] at hok
    exact ⟨r.2, by rw [← Except.ok.inj hok]⟩

/-- That page is mapped, and nothing else changes. -/
theorem vmm_refines_onePage : ∃ s', oneUncachedPage onePage = .ok (.ok, s') ∧
    kvaMap s' = extend (kvaMap (bootTables 0)) ((VM_KVA_BASE + 0x200000) / X86_PTE_SIZE_4K) 1
      fun i => requested (0x300000 + i * X86_PTE_SIZE_4K) (VMM_WRITE ||| VMM_CACHE_UC) := by
  obtain ⟨s', hs'⟩ := oneUncachedPage_ok
  obtain ⟨st, s₁, h, href⟩ := (vmm_refines bootTables_kernel .refl onePage_fresh).1
    (BitVec.ofNat 64 (VM_KVA_BASE + 0x200000)) 0x300000 0x1000 (VMM_WRITE ||| VMM_CACHE_UC)
  rw [← oneUncachedPage, hs'] at h
  cases h
  rcases href with ⟨-, -, hmap, -⟩ | ⟨hne, -⟩
  · exact ⟨s', hs', hmap⟩
  · exact absurd rfl hne

end Bongos.Arch
