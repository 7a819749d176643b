import Bongos.Arch.PagingRefinement
import Bongos.FallibleLoop

/-!
# W^X and memory types of runtime mappings

`archPagingVerifyWx` walks the tables once at boot and panics at a leaf that is writable and
executable. It accepts any leaf of the kernel virtual area that is not: one that maps the kernel's
text writable, too (`verifyWx_accepts_writableText`). From tables whose leaves in the area are safe,
though, the checks of `archMapPages` keep every leaf safe (`vmm_wxSafe`): a call changes the leaves
of the area only (`KernelInv.change`), each leaf that it writes is safe when it is written
(`NewLeaf.safe`), and no call changes the direct map that it was checked against
(`KvaOnly.hhdmLeafEntry_eq`).
-/

namespace Bongos.Arch

open Mm RadixTable List Option

/-! ## `archPagingVerifyWx` -/

/-- The panics of `archPagingVerifyWx`. -/
inductive WxPanic where
  | inactive
  | wpClear
  | nxeClear
  /-- A slot of the lower half is present. -/
  | lowerHalf (i : ℕ)
  /-- A slot of the kernel half is not present. -/
  | kernelHalf (i : ℕ)
  | pml4User (i : ℕ)
  | pdptUser
  | pdUser
  | ptUser
  | notGlobal (va : ℕ)
  | writableExecutable (va : ℕ)
  | outsideText (va : ℕ)
  /-- The direct map has a frame of the text writable. -/
  | aliasWritable (pa : ℕ)
  deriving DecidableEq

/-- The counters that `archPagingVerifyWx` logs. -/
structure LeafCounts where
  leafCount : ℕ := 0
  execLeafCount : ℕ := 0
  deriving DecidableEq

variable (s : Paging)

def checkLeaf (va entry leafSize : ℕ) (c : LeafCounts) : Except WxPanic LeafCounts :=
  if entry &&& X86_PTE_G = 0 then .error (.notGlobal va)
  else if entry &&& X86_PTE_W ≠ 0 ∧ entry &&& X86_PTE_NX = 0 then .error (.writableExecutable va)
  else
    let c := { c with leafCount := c.leafCount + 1 }
    if entry &&& X86_PTE_NX ≠ 0 then .ok c
    else if leafSize ≠ X86_PTE_SIZE_4K ∨ va < s.kernelTextStart ∨
        (va + leafSize) % 2^64 > s.kernelTextEnd then .error (.outsideText va)
    else
      let c := { c with execLeafCount := c.execLeafCount + 1 }
      let pa := entry &&& X86_PTE_ADDR_MASK
      match hhdmLeafEntry s pa with
      | none => .ok c
      | some hhdmEntry => if hhdmEntry &&& X86_PTE_W ≠ 0 then .error (.aliasWritable pa) else .ok c

/-- A loop of `archPagingVerifyWx` over the entries of a table. -/
def verifyTable (f : ℕ → ℕ → LeafCounts → Except WxPanic LeafCounts) (s : Paging)
    (table start n : ℕ) (c : LeafCounts) : Except WxPanic LeafCounts :=
  (List.range' start n).foldlM (fun c i => f i (s.mem table i) c) c

/-- The body of the innermost loop. -/
def verifyPte (va2 i1 e1 : ℕ) (c : LeafCounts) : Except WxPanic LeafCounts :=
  if e1 &&& X86_PTE_P = 0 then .ok c
  else if e1 &&& X86_PTE_US ≠ 0 then .error .ptUser
  else checkLeaf s (va2 ||| i1 <<< 12) e1 X86_PTE_SIZE_4K c

/-- The body of the loop over a page directory. -/
def verifyPde (va3 i2 e2 : ℕ) (c : LeafCounts) : Except WxPanic LeafCounts :=
  if e2 &&& X86_PTE_P = 0 then .ok c
  else if e2 &&& X86_PTE_US ≠ 0 then .error .pdUser
  else
    let va2 := va3 ||| i2 <<< 21
    if e2 &&& X86_PTE_PS ≠ 0 then checkLeaf s va2 e2 X86_PTE_SIZE_2M c
    else verifyTable (verifyPte s va2) s (tableAt e2) 0 512 c

/-- The body of the loop over a page directory pointer table. -/
def verifyPdpte (va4 i3 e3 : ℕ) (c : LeafCounts) : Except WxPanic LeafCounts :=
  if e3 &&& X86_PTE_P = 0 then .ok c
  else if e3 &&& X86_PTE_US ≠ 0 then .error .pdptUser
  else
    let va3 := va4 ||| i3 <<< 30
    if e3 &&& X86_PTE_PS ≠ 0 then checkLeaf s va3 e3 X86_PTE_SIZE_1G c
    else verifyTable (verifyPde s va3) s (tableAt e3) 0 512 c

/-- The body of the loop over the kernel half of the root table. -/
def verifyPml4e (i4 e4 : ℕ) (c : LeafCounts) : Except WxPanic LeafCounts :=
  if e4 &&& X86_PTE_P = 0 then .error (.kernelHalf i4)
  else if e4 &&& X86_PTE_US ≠ 0 then .error (.pml4User i4)
  else verifyTable (verifyPdpte s (0xFFFF000000000000 ||| i4 <<< 39)) s (tableAt e4) 0 512 c

/-- `archPagingVerifyWx`: the counters that it logs, or its panic. -/
def archPagingVerifyWx : Except WxPanic LeafCounts :=
  if !s.tablesActive then .error .inactive
  else if !s.cr0Wp then .error .wpClear
  else if !s.eferNxe then .error .nxeClear
  else
    match (List.range ARCH_PML4_KERNEL_START).find? fun i => s.mem s.root i &&& X86_PTE_P ≠ 0 with
    | some i => .error (.lowerHalf i)
    | none => verifyTable (verifyPml4e s) s s.root ARCH_PML4_KERNEL_START
        (ARCH_PML4_KERNEL_END - ARCH_PML4_KERNEL_START) {}

variable {f : ℕ → ℕ → LeafCounts → Except WxPanic LeafCounts} {s : Paging} {c c' : LeafCounts}

/-- A loop that ends without a panic has checked every entry. -/
theorem verifyTable_ok {table start n i : ℕ} (h : verifyTable f s table start n c = .ok c')
    (h1 : start ≤ i) (h2 : i < start + n) : ∃ d d', f i (s.mem table i) d = .ok d' := by
  refine FallibleLoop.foldlM_ok
    (P := fun seen _ => ∀ i ∈ seen, ∃ d d', f i (s.mem table i) d = .ok d') h (by simp) ?_ i
    (mem_range'_1.2 ⟨h1, h2⟩)
  rintro seen a rest d d' - hseen ha i hi
  rcases mem_append.1 hi with hi | hi
  · exact hseen i hi
  · rw [mem_singleton.1 hi]
    exact ⟨d, d', ha⟩

/-- A loop whose body never panics does not panic. -/
theorem verifyTable_of
    {table start n : ℕ}
    (h : ∀ i, start ≤ i → i < start + n → ∀ d, ∃ d', f i (s.mem table i) d = .ok d') : ∃ c', verifyTable f s table start n c = .ok c' := by
  have hloop : ∃ c', verifyTable f s table start n c = .ok c' ∧ True := by
    refine FallibleLoop.exists_foldlM_ok (P := fun _ _ => True) trivial fun {seen a _ d} hl _ => ?_
    obtain ⟨h1, h2⟩ := mem_range'_1.1 (hl ▸ mem_append_right seen mem_cons_self)
    obtain ⟨d', hd'⟩ := h a h1 h2 d
    exact ⟨d', hd', trivial⟩
  exact hloop.imp fun _ => And.left

/-- A leaf is not both writable and executable. -/
def NotWx (e : ℕ) : Prop := ¬ (e &&& X86_PTE_W ≠ 0 ∧ e &&& X86_PTE_NX = 0)

theorem checkLeaf_ok {va entry leafSize : ℕ}
    (h : checkLeaf s va entry leafSize c = .ok c') : NotWx entry := by
  unfold checkLeaf at h
  split_ifs at h with h1 h2
  all_goals exact h2

/-- An entry that was checked, `n` levels above the page tables: if it is present then it is a leaf
that was checked, or every entry of the table below was. -/
def Checked (s : Paging) : ℕ → ℕ → Prop
  | 0, e => e &&& X86_PTE_P ≠ 0 → NotWx e
  | n + 1, e => e &&& X86_PTE_P ≠ 0 → (e &&& X86_PTE_PS ≠ 0 → NotWx e) ∧
      (e &&& X86_PTE_PS = 0 → ∀ i < 512, Checked s n (s.mem (tableAt e) i))

section

variable {s : Paging} {va i e : ℕ} {c c' : LeafCounts}

theorem verifyPte_ok (h : verifyPte s va i e c = .ok c') : Checked s 0 e := by
  intro hp
  rw [verifyPte, if_neg hp] at h
  split_ifs at h
  exact checkLeaf_ok h

theorem verifyPde_ok (h : verifyPde s va i e c = .ok c') : Checked s 1 e := by
  intro hp
  rw [verifyPde, if_neg hp] at h
  split_ifs at h with hus hps
  · exact ⟨fun _ => checkLeaf_ok h, fun h => absurd h hps⟩
  · refine ⟨fun h => absurd h hps, fun _ i hi => ?_⟩
    obtain ⟨d, d', hd⟩ := verifyTable_ok h (Nat.zero_le i) (by omega)
    exact verifyPte_ok hd

theorem verifyPdpte_ok (h : verifyPdpte s va i e c = .ok c') : Checked s 2 e := by
  intro hp
  rw [verifyPdpte, if_neg hp] at h
  split_ifs at h with hus hps
  · exact ⟨fun _ => checkLeaf_ok h, fun h => absurd h hps⟩
  · refine ⟨fun h => absurd h hps, fun _ i hi => ?_⟩
    obtain ⟨d, d', hd⟩ := verifyTable_ok h (Nat.zero_le i) (by omega)
    exact verifyPde_ok hd

/-- Every entry of a table below the root table was checked, and below the lower half there is
none. -/
theorem archPagingVerifyWx_ok (h : archPagingVerifyWx s = .ok c) {i4 t : ℕ} (h4 : i4 < 512)
    (hlink : link (s.mem s.root i4) = some t) (hi : i < 512) : Checked s 2 (s.mem t i) := by
  unfold link at hlink
  split_ifs at hlink with hp
  cases hlink
  unfold archPagingVerifyWx at h
  split_ifs at h
  split at h
  · cases h
  rename_i hlower
  have h256 : 256 ≤ i4 := by
    by_contra hlt
    have := find?_eq_none.1 hlower i4 (mem_range.2 (by simp [ARCH_PML4_KERNEL_START]; omega))
    simp [hp.1] at this
  obtain ⟨d, d', hd⟩ := verifyTable_ok h h256
    (by simp [ARCH_PML4_KERNEL_START, ARCH_PML4_KERNEL_END]; omega)
  unfold verifyPml4e at hd
  split_ifs at hd
  obtain ⟨d, d', hd⟩ := verifyTable_ok hd (Nat.zero_le i) (by omega)
  exact verifyPdpte_ok hd

/-- The entries below an entry that was checked were checked. -/
theorem Checked.below {n t : ℕ} (h : Checked s (n + 1) e) (hlink : link e = some t) (hi : i < 512) :
    Checked s n (s.mem t i) := by
  unfold link at hlink
  split_ifs at hlink with hp
  cases hlink
  exact (h hp.1).2 hp.2 i hi

end

/-! ## Leaves -/

/-- The entry `j` of the table at the path `q` is a present leaf: of 1 GiB or 2 MiB if it says so,
of 4 KiB in a page table. -/
structure IsLeaf (s : Paging) (q : List ℕ) (j e : ℕ) : Prop where
  index_lt : ∀ i ∈ q ++ [j], i < 512
  entry_eq : s.entry q j = some e
  present : e &&& X86_PTE_P ≠ 0
  level : (q.length = 1 ∨ q.length = 2) ∧ e &&& X86_PTE_PS ≠ 0 ∨ q.length = 3

variable {s s' : Paging} {q : List ℕ} {j e : ℕ}

/-- `archPagingVerifyWx` checks every leaf. -/
theorem IsLeaf.notWx {c : LeafCounts} (h : archPagingVerifyWx s = .ok c) (hleaf : IsLeaf s q j e) :
    NotWx e := by
  obtain ⟨t, ht, rfl⟩ := entry_eq_some.1 hleaf.entry_eq
  have hlt := hleaf.index_lt
  have hj : j < 512 := hlt j (by simp)
  -- The path has one, two, or three indices; each is a link, and the entry below it was checked.
  match q, hleaf.level with
  | [i4], hlevel =>
    obtain ⟨t1, h1, hw⟩ := bind_eq_some_iff.1 ht
    cases hw
    have hcheck := archPagingVerifyWx_ok h (hlt i4 (by simp)) h1 hj
    exact (hcheck hleaf.present).1 (by simpa using hlevel)
  | [i4, i3], hlevel =>
    obtain ⟨t1, h1, hw⟩ := bind_eq_some_iff.1 ht
    obtain ⟨t2, h2, hw⟩ := bind_eq_some_iff.1 hw
    cases hw
    have hcheck := (archPagingVerifyWx_ok h (hlt i4 (by simp)) h1 (hlt i3 (by simp))).below h2 hj
    exact (hcheck hleaf.present).1 (by simpa using hlevel)
  | [i4, i3, i2], _ =>
    obtain ⟨t1, h1, hw⟩ := bind_eq_some_iff.1 ht
    obtain ⟨t2, h2, hw⟩ := bind_eq_some_iff.1 hw
    obtain ⟨t3, h3, hw⟩ := bind_eq_some_iff.1 hw
    cases hw
    exact ((archPagingVerifyWx_ok h (hlt i4 (by simp)) h1 (hlt i3 (by simp))).below h2
      (hlt i2 (by simp))).below h3 hj hleaf.present
  | [], hlevel => simp at hlevel
  | _ :: _ :: _ :: _ :: _, hlevel => simp at hlevel

/-! ## Safety -/

/-- A leaf of the kernel virtual area is safe: not executable, not a writable mapping of the
kernel's text or read-only data, and of the same cache type as the direct map's leaf for its
frame. -/
structure LeafSafe (s : Paging) (e : ℕ) : Prop where
  nx : e &&& X86_PTE_NX ≠ 0
  text : e &&& X86_PTE_W ≠ 0 → ¬ (e &&& X86_PTE_ADDR_MASK < s.kernelRoPhysEnd ∧
    s.kernelRoPhysStart < (e &&& X86_PTE_ADDR_MASK) + X86_PTE_SIZE_4K)
  cache : ∀ h, hhdmLeafEntry s (e &&& X86_PTE_ADDR_MASK) = some h → cacheOfEntry e = cacheOfEntry h

/-- No leaf is both writable and executable, and every leaf of the kernel virtual area is safe. -/
structure WxSafe (s : Paging) : Prop where
  notWx : ∀ q j e, IsLeaf s q j e → NotWx e
  kva : ∀ q j e, IsLeaf s q j e → KvaPath q → LeafSafe s e

/-- `findAnyLeafEntry` reads the entries along the path of an address. -/
theorem findAnyLeafEntry_eq (v : PagingInv s) (va : ℕ) : findAnyLeafEntry s va =
    (s.entry [pml4Index va] (pdptIndex va)).bind fun e3 =>
      if e3 &&& X86_PTE_P = 0 then none
      else if e3 &&& X86_PTE_PS ≠ 0 then some e3
      else (s.entry [pml4Index va, pdptIndex va] (pdIndex va)).bind fun e2 =>
        if e2 &&& X86_PTE_P = 0 then none
        else if e2 &&& X86_PTE_PS ≠ 0 then some e2
        else (s.entry [pml4Index va, pdptIndex va, pdIndex va] (ptIndex va)).bind fun e1 =>
          if e1 &&& X86_PTE_P = 0 then none else some e1 := by
  have hlink : ∀ e, ¬ (e &&& X86_PTE_P = 0) → ¬ (e &&& X86_PTE_PS ≠ 0) →
      link e = some (tableAt e) :=
    fun e hp hps => if_pos ⟨hp, not_not.1 hps⟩
  simp only [findAnyLeafEntry, Paging.entry, RadixTable.entry, RadixTable.walk]
  set e4 := s.mem s.root (pml4Index va) with he4
  by_cases h4 : e4 &&& X86_PTE_P = 0
  · simp [h4, link_of_absent h4]
  have hps : e4 &&& X86_PTE_PS = 0 := v.small [] _ e4 (by simp) (by simp [KvaPath]) rfl h4
  rw [if_neg h4, hlink e4 h4 (not_not.2 hps)]
  simp only [bind_some, map_some]
  split_ifs with h3 h3s h2 h2s h1
  all_goals simp_all

/-- No call changes the direct map. -/
theorem KvaOnly.hhdmLeafEntry_eq (h : KvaOnly s s') (v : PagingInv s) (v' : PagingInv s') (pa : ℕ) :
    hhdmLeafEntry s' pa = hhdmLeafEntry s pa := by
  unfold hhdmLeafEntry
  split_ifs with hpa
  · rfl
  have hslot : ∀ q, ¬ KvaPath (pml4Index (BOOTINFO_HHDM_BASE + pa) :: q) := by
    intro q hk
    have hk : KvaSlot (pml4Index (BOOTINFO_HHDM_BASE + pa)) := hk _ rfl
    have hmask : ∀ x, x &&& 511 = x % 512 := fun x => Nat.and_two_pow_sub_one_eq_mod x 9
    rw [kvaSlot_iff, pml4Index, hmask, Nat.shiftRight_eq_div_pow] at hk
    unfold BOOTINFO_HHDM_SIZE at hpa
    unfold BOOTINFO_HHDM_BASE at hk
    omega
  rw [findAnyLeafEntry_eq v, findAnyLeafEntry_eq v', h.entry_eq _ _ (by simp) (hslot _),
    h.entry_eq _ _ (by simp) (hslot _), h.entry_eq _ _ (by simp) (hslot _)]

/-- A leaf stays safe. -/
theorem LeafSafe.of_only (h : LeafSafe s e) (c : KvaOnly s s') (v : PagingInv s)
    (v' : PagingInv s') : LeafSafe s' e := by
  refine ⟨h.nx, ?_, fun h' hh => h.cache h' ?_⟩
  · rw [c.same]
    exact h.text
  · rwa [c.hhdmLeafEntry_eq v v'] at hh

/-- A leaf that a request writes is safe when it is written. -/
theorem NewLeaf.safe (h : NewLeaf s e) : LeafSafe s e := by
  have hnx := h.nx
  obtain ⟨pa, size, flags, hargs, hpage, i, hi, rfl⟩ := h
  have hle := hargs.pa_le
  set e := ((pa + i * X86_PTE_SIZE_4K) &&& X86_PTE_ADDR_MASK) ||| leafFlags flags with he
  have hmap : mappingOf e = requested (pa + i * X86_PTE_SIZE_4K) flags := by
    rw [size_4k] at hi hpage
    refine mappingOf_leaf ?_ ?_ <;> rw [size_4k] <;> omega
  have haddr : e &&& X86_PTE_ADDR_MASK = pa + i * X86_PTE_SIZE_4K := congrArg KvaMapping.pa hmap
  refine ⟨hnx, fun hw => ?_, fun h' hh => ?_⟩
  · rw [he, addr_or_land_flag (by decide)] at hw
    have := hargs.text ((leafFlags_spec flags).2.2.2.1.1 hw)
    rw [haddr]
    rw [size_4k] at hi ⊢
    omega
  · rw [haddr] at hh
    rw [cacheOfEntry_eq, hmap, requested_cache hargs.cache_ne]
    exact (hargs.alias_eq i hi _ (by rw [hhdmAliasCache, hh]; rfl)).symm

/-- A leaf of the kernel virtual area is the leaf of one of its pages. -/
theorem IsLeaf.kvaPte_eq (v : PagingInv s) (h : IsLeaf s q j e) (hk : KvaPath q) :
    ∃ n, kvaPte s n = some e := by
  rcases h.level with ⟨hlen, hps⟩ | hlen
  · exact absurd (v.small q j e (by omega) hk h.entry_eq h.present) hps
  match q, hlen with
  | [i4, i3, i2], _ =>
    have hk4 : KvaSlot i4 := hk i4 rfl
    have hlt := h.index_lt
    simp only [cons_append, nil_append, mem_cons, not_mem_nil, or_false,
      forall_eq_or_imp, forall_eq] at hlt
    -- The page number whose digits are the path.
    set n := 0xFFFF000000000 + i4 * 2^27 + i3 * 2^18 + i2 * 2^9 + j with hn
    obtain ⟨n4, n3, n2, n1⟩ := index_eq n
    have hpath : ptPath n = [i4, i3, i2] := by
      rw [ptPath, n4, n3, n2]
      simp only [List.cons.injEq, and_true]
      omega
    have hslot : ptSlot n = j := by
      rw [ptSlot, n1]
      omega
    have hkva : KvaPage n := by
      rw [kvaSlot_iff] at hk4
      rw [kvaPage_iff]
      omega
    refine ⟨n, ?_⟩
    rw [kvaPte, if_pos hkva, hpath, hslot, h.entry_eq, filter_some,
      if_pos (by simpa using h.present)]

/-- What holds after every call: the leaves of the kernel virtual area are safe, and the others are
those that were verified. -/
structure WxInv (s : Paging) : Prop where
  kernel : KernelInv s
  safe : ∀ n e, kvaPte s n = some e → LeafSafe s e
  notWx : ∀ q j e, IsLeaf s q j e → ¬ KvaPath q → NotWx e

theorem WxInv.step (i : WxInv s) (h : PagingStep s s') : WxInv s' := by
  obtain ⟨c, hleaf⟩ := i.kernel.change h
  have k' := i.kernel.step h
  refine ⟨k', fun n e he => ?_, fun q j e hl hk => ?_⟩
  · have hsafe : LeafSafe s e := by
      rcases hleaf n e he with hold | hnew
      · exact i.safe n e hold
      · exact hnew.safe
    exact hsafe.of_only c.only i.kernel.paging k'.paging
  · have hq : q.length ≤ 3 := by
      have := hl.level
      omega
    have hentry := c.only.entry_eq q j hq fun h => hk h.of_append
    exact i.notWx q j e ⟨hl.index_lt, hentry ▸ hl.entry_eq, hl.present, hl.level⟩ hk

theorem WxInv.safety (i : WxInv s) : WxSafe s := by
  have hkva : ∀ q j e, IsLeaf s q j e → KvaPath q → LeafSafe s e := fun q j e hl hk => by
    obtain ⟨n, hn⟩ := hl.kvaPte_eq i.kernel.paging hk
    exact i.safe n e hn
  refine ⟨fun q j e hl => ?_, hkva⟩
  by_cases hk : KvaPath q
  · exact fun hwx => (hkva q j e hl hk).nx hwx.2
  · exact i.notWx q j e hl hk

/-- **W^X and memory types of runtime mappings.** From tables that `archPagingVerifyWx` accepts and
whose leaves in the kernel virtual area, if there are any, are safe, every run of `vmmMapKernel` and
`vmmUnmapKernel` calls leaves no leaf that is writable and executable, and in the kernel virtual
area no leaf that is executable, maps the kernel's text or read-only data writable, or differs in
its cache type from the direct map's leaf for the same frame. -/
theorem vmm_wxSafe {s₀ : Paging} (h₀ : KernelInv s₀)
    (hsafe : ∀ n e, kvaPte s₀ n = some e → LeafSafe s₀ e) {c : LeafCounts}
    (hwx : archPagingVerifyWx s₀ = .ok c) (hrun : Run PagingStep s₀ s) : WxSafe s := by
  have i₀ : WxInv s₀ := ⟨h₀, hsafe, fun q j e hl _ => hl.notWx hwx⟩
  exact (hrun.invariant i₀ WxInv.step).safety

section Example

variable {leaf : ℕ}

/-- Below the root table, these tables have one entry each. -/
theorem bootTables_verifyTable {f : ℕ → ℕ → LeafCounts → Except WxPanic LeafCounts} {t : ℕ}
    (ht : t ≠ 0x1000) (hzero : ∀ i d, f i 0 d = .ok d)
    (h : ∀ d, ∃ d', f 0 ((bootTables leaf).mem t 0) d = .ok d') (c : LeafCounts) :
    ∃ c', verifyTable f (bootTables leaf) t 0 512 c = .ok c' := by
  refine verifyTable_of fun i _ _ d => ?_
  by_cases hi : i = 0
  · rw [hi]
    exact h d
  · have hmem : (bootTables leaf).mem t i = 0 := by simp [bootTables, ht, hi]
    exact ⟨d, by rw [hmem, hzero]⟩

/-- `archPagingVerifyWx` accepts every leaf of the kernel virtual area that is not executable. -/
theorem bootTables_verifyWx (h : leaf &&& X86_PTE_P ≠ 0 → leaf &&& X86_PTE_US = 0 ∧
      leaf &&& X86_PTE_G ≠ 0 ∧ leaf &&& X86_PTE_NX ≠ 0) :
    ∃ c, archPagingVerifyWx (bootTables leaf) = .ok c := by
  set s := bootTables leaf with hs
  have hroot : ∀ i, s.mem s.root i = if 256 ≤ i ∧ i < 512 then
      tableEntry (0x100000 + i * 0x1000) else 0 := fun i => by
    rw [show s.root = 0x1000 from (by decide : tableAt 0x1000 = 0x1000)]
    simp only [hs, bootTables, if_true]
  -- From the page table up.
  have hpt : ∀ va c, ∃ c', verifyTable (verifyPte s va) s 0x3000 0 512 c = .ok c' := fun va =>
    bootTables_verifyTable (by decide) (fun i d => if_pos (Nat.zero_and _)) fun d => by
      have hmem : s.mem 0x3000 0 = leaf := rfl
      rw [hmem, verifyPte]
      split_ifs with hp hus
      · exact ⟨d, rfl⟩
      · exact absurd (h hp).1 hus
      · obtain ⟨-, hg, hnx⟩ := h hp
        rw [checkLeaf, if_neg hg, if_neg fun h => hnx h.2]
        exact ⟨_, if_pos hnx⟩
  have hpd : ∀ va c, ∃ c', verifyTable (verifyPde s va) s 0x2000 0 512 c = .ok c' := fun va =>
    bootTables_verifyTable (by decide) (fun i d => if_pos (Nat.zero_and _)) fun d => by
      obtain ⟨hp, hus, hps, ht⟩ := tableEntry_spec 0x3000
      rw [show s.mem 0x2000 0 = tableEntry 0x3000 from rfl, verifyPde, if_neg hp,
        if_neg (not_not.2 hus), if_neg (not_not.2 hps), ht]
      exact hpt _ d
  have hpdpt : ∀ i, 256 ≤ i → ∀ va c,
      ∃ c', verifyTable (verifyPdpte s va) s (0x100000 + i * 0x1000) 0 512 c = .ok c' :=
        fun i hi va =>
    bootTables_verifyTable (by omega) (fun i d => if_pos (Nat.zero_and _)) fun d => by
      by_cases h384 : i = 384
      · subst h384
        obtain ⟨hp, hus, hps, ht⟩ := tableEntry_spec 0x2000
        rw [show s.mem (0x100000 + 384 * 0x1000) 0 = tableEntry 0x2000 from rfl, verifyPdpte,
          if_neg hp, if_neg (not_not.2 hus), if_neg (not_not.2 hps), ht]
        exact hpd _ d
      · have hmem : s.mem (0x100000 + i * 0x1000) 0 = 0 := by
          simp only [hs, bootTables]
          split_ifs <;> omega
        exact ⟨d, by rw [hmem]; exact if_pos (Nat.zero_and _)⟩
  have hlower : ((List.range ARCH_PML4_KERNEL_START).find? fun i =>
      s.mem s.root i &&& X86_PTE_P ≠ 0) = none := by
    rw [find?_eq_none]
    intro i hi
    have hi : i < 256 := mem_range.1 hi
    have hmem : s.mem s.root i = 0 := by rw [hroot, if_neg (by omega)]
    simp [hmem]
  rw [archPagingVerifyWx, if_neg (by simp [hs, bootTables]), if_neg (by simp [hs, bootTables]),
    if_neg (by simp [hs, bootTables]), hlower]
  refine verifyTable_of fun i h1 h2 d => ?_
  have hi : 256 ≤ i ∧ i < 512 := ⟨h1, h2⟩
  have hphys : ∀ i < 512, tableAt (0x100000 + i * 0x1000) = 0x100000 + i * 0x1000 := by
    decide +kernel
  obtain ⟨hp, hus, -, ht⟩ := tableEntry_spec (0x100000 + i * 0x1000)
  rw [hroot, if_pos hi, verifyPml4e, if_neg hp, if_neg (not_not.2 hus), ht, hphys i hi.2]
  exact hpdpt i hi.1 _ d

/-- The example tables are accepted, and after one uncached page is mapped in them they are safe. -/
theorem vmm_wxSafe_onePage : ∃ s, oneUncachedPage onePage = .ok (.ok, s) ∧
    Run PagingStep (bootTables 0) s ∧ WxSafe s := by
  obtain ⟨c, hc⟩ := @bootTables_verifyWx 0 (by decide)
  obtain ⟨s, hs⟩ := oneUncachedPage_ok
  have hrun : Run PagingStep (bootTables 0) s := .single (.map onePage_fresh hs)
  exact ⟨s, hs, hrun, vmm_wxSafe bootTables_kernel.inv
    (fun n e he => by simp [bootTables_kernel.unmapped] at he) hc hrun⟩

/-- A leaf that maps the kernel's text writable. -/
def writableText : ℕ := 0x200000 ||| X86_PTE_P ||| X86_PTE_W ||| X86_PTE_NX ||| X86_PTE_G

/-- `archPagingVerifyWx` alone does not make the runtime mappings safe: it accepts tables that map
the kernel's text writable in the kernel virtual area. -/
theorem verifyWx_accepts_writableText :
    ¬ ∀ (s₀ s : Paging) (c : LeafCounts), archPagingVerifyWx s₀ = .ok c → Run PagingStep s₀ s →
      WxSafe s := by
  intro hall
  obtain ⟨c, hc⟩ := @bootTables_verifyWx writableText (by decide)
  have hsafe : WxSafe (bootTables writableText) := hall _ _ c hc .refl
  have hleaf : IsLeaf (bootTables writableText) [384, 0, 0] 0 writableText :=
    ⟨by decide, by decide +kernel, by decide, .inr rfl⟩
  have hkva : KvaPath [384, 0, 0] := by
    intro i hi
    cases hi
    exact ⟨by decide, by decide⟩
  exact (hsafe.kva _ _ _ hleaf hkva).text (by decide) (by decide)

end Example

end Bongos.Arch
