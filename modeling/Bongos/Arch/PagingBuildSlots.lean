import Bongos.Arch.PagingBuildRange

/-!
# The root table that `archPagingBuildKernel` starts with

The loop over the kernel half of the root table gives every slot a new empty table, except for those
of the `Page` array that the loader had filled: there it adopts the loader's tables, after it has
checked that all of them are reserved. A new table is never a reserved page, so the adopted tables
share nothing with the new ones (`SlotInv`), and the build starts with its invariant and without a
leaf (`SlotInv.build`).
-/

namespace Bongos.Arch

open Mm RadixTable FallibleLoop Function List

variable {s s₀ : Paging} {alloc : TableAnswers} {env : BuildEnv} {idx : ℕ}

/-- The answers of the memory manager: no page is a table yet, and none is a reserved one. -/
structure BuildAnswers (alloc : TableAnswers) (env : BuildEnv) : Prop
    extends FreshTables alloc where
  unreserved : ∀ s phys, alloc s = .ok phys → env.reservedTablePage (tableAt phys) = false

/-- The root table of the loader. -/
def BuildEnv.loaderPml4 (env : BuildEnv) : ℕ := tableAt (env.cr3 &&& X86_PTE_ADDR_MASK)

/-- The loader has filled a slot of the `Page` array. -/
def LoaderPageArray (env : BuildEnv) (s : Paging) : Prop :=
  ∃ idx, ARCH_PML4_PAGE_ARRAY_START ≤ idx ∧ idx < ARCH_PML4_PAGE_ARRAY_END ∧
    s.mem env.loaderPml4 idx &&& X86_PTE_P ≠ 0

/-- The panics that say that the loader has not set up what the kernel relies on, and those of a
table that cannot be allocated. `s` is the state before the call. -/
def BuildExcused (alloc : TableAnswers) (env : BuildEnv) (s : Paging) : BuildPanic → Prop
  | .calledTwice => s.kernelPml4Phys ≠ 0
  | .textBase =>
    (archEarlyLookup s.mem env.cr3 s.kernelTextStart).map Prod.fst ≠ some env.kernelPhysBase
  | .hugePageArray _ | .notReserved _ => LoaderPageArray env s
  | panic => MemoryPanic alloc panic

theorem MemoryPanic.excused {e : BuildPanic} (h : MemoryPanic alloc e) :
    BuildExcused alloc env s e := by
  cases e <;> first | exact h | exact h.elim

/-- The root table before the slot `idx` is filled: only reserved tables are shared, and only under
the `Page` array, the new tables are empty, and so are the slots to come. -/
structure SlotInv (env : BuildEnv) (s₀ : Paging) (idx : ℕ) (s : Paging) : Prop where
  tables : s.Tables
  root : env.reservedTablePage s.root = false
  sole : ∀ q c, q.length ≤ 3 → s.walk q = some c → env.reservedTablePage c = false →
    Sole link 3 s.mem s.root q c
  built : ∀ q c, q.length ≤ 3 → BuiltPath q → s.walk q = some c → env.reservedTablePage c = false
  empty : ∀ i j, ARCH_PML4_KERNEL_START ≤ i → i < idx → BuiltSlot i → s.entry [i] j = some 0
  later : ∀ i, idx ≤ i → s.mem s.root i = 0
  loader : ∀ i, idx ≤ i → s.mem env.loaderPml4 i = s₀.mem env.loaderPml4 i ∨
    s.mem env.loaderPml4 i = 0
  textStart : s.kernelTextStart = s₀.kernelTextStart
  textEnd : s.kernelTextEnd = s₀.kernelTextEnd

theorem SlotInv.sole_root (v : SlotInv env s₀ idx s) : Sole link 3 s.mem s.root [] s.root :=
  v.sole [] s.root (by simp) rfl v.root

/-- Below a slot, no table is the root table. -/
theorem SlotInv.ne_root (v : SlotInv env s₀ idx s) {i c : ℕ} {q : List ℕ} (hq : (i :: q).length ≤ 3)
    (hc : s.walk (i :: q) = some c) : c ≠ s.root := by
  rintro rfl
  exact nomatch v.sole_root hq hc

/-! ## A new table -/

theorem SlotInv.attach (v : SlotInv env s₀ idx s) (hidx : idx < 512) {phys : ℕ}
    (hfresh : Unused link 3 s.mem s.root (tableAt phys))
    (hres : env.reservedTablePage (tableAt phys) = false) :
    SlotInv env s₀ (idx + 1) (s.attach s.root idx phys) := by
  have hcan := canAttach v.sole_root rfl (by simp) (by rw [v.later idx le_rfl]; rfl) hfresh
  refine ⟨v.tables.attach hidx, v.root, ?_, ?_, ?_, ?_, ?_, v.textStart, v.textEnd⟩
  · exact fun q c hq hc hfree => sole_attach hcan hq hc fun hc => v.sole q c hq hc hfree
  · intro q c hq hb hc
    rw [Paging.walk_attach hcan hq] at hc
    split_ifs at hc
    · cases hc
      exact hres
    · exact v.built q c hq hb hc
  · intro i j hi hlt hb
    rw [Paging.entry_attach hcan (by simp)]
    split_ifs with hnew hnil
    · rfl
    · simp at hnil
    · have hne : i ≠ idx := fun h => hnew (by rw [h]; rfl)
      exact v.empty i j hi (by omega) hb
  · intro i hi
    have hsome : (s.attach s.root idx phys).entry [] i = some (s.mem s.root i) := by
      rw [Paging.entry_attach hcan (by simp), if_neg (by simp), if_neg (by omega)]
      rfl
    rw [v.later i (by omega)] at hsome
    exact Option.some.inj hsome
  · intro i hi
    have hmem : (s.attach s.root idx phys).mem env.loaderPml4 i =
        if env.loaderPml4 = s.root ∧ i = idx then tableEntry phys
        else update s.mem (tableAt phys) (fun _ => 0) env.loaderPml4 i := write_apply
    rw [hmem, if_neg (by omega)]
    by_cases hl : env.loaderPml4 = tableAt phys
    · rw [hl, update_self]
      exact .inr rfl
    · rw [update_of_ne hl]
      exact v.loader i (by omega)

/-! ## The loader's tables -/

/-- Every table that a walk from `pdpt` reaches is reserved. -/
def SubtreeReserved (env : BuildEnv) (s : Paging) (pdpt : ℕ) : Prop :=
  ∀ q c, q.length ≤ 2 → RadixTable.walk link s.mem pdpt q = some c → env.reservedTablePage c = true

/-- `validateReservedTablePage` shows that a table is reserved. -/
theorem validateReservedTablePage_outcome (phys : ℕ) :
    Outcome (fun e => ∃ phys, e = .notReserved phys) (fun _ => env.reservedTablePage phys = true)
      (validateReservedTablePage env phys) := by
  rw [validateReservedTablePage]
  split_ifs with h
  · exact h
  · exact ⟨phys, rfl⟩

/-- An entry that leads to a table is one of the 512, and leads to its address. -/
theorem Paging.Tables.of_link (ht : s.Tables) {t i b : ℕ} (h : link (s.mem t i) = some b) :
    i ∈ List.range 512 ∧ ¬ (s.mem t i &&& X86_PTE_P = 0 ∨ s.mem t i &&& X86_PTE_PS ≠ 0) ∧
      b = s.mem t i &&& X86_PTE_ADDR_MASK := by
  refine ⟨?_, ?_, ?_⟩
  · rw [mem_range]
    by_contra hi
    rw [ht t i (by omega), link_zero] at h
    exact nomatch h
  · intro hskip
    rw [link, if_neg fun h' => hskip.elim h'.1 fun hps => hps h'.2] at h
    exact nomatch h
  · rw [link] at h
    split_ifs at h
    exact (Option.some.inj h).symm

/-- The address of a table is not changed by the mask. -/
theorem tableAt_land (phys : ℕ) :
    tableAt (phys &&& X86_PTE_ADDR_MASK) = phys &&& X86_PTE_ADDR_MASK := by
  rw [tableAt, Nat.land_assoc, Nat.and_self]

/-- `adoptPageArraySubtree` checks every table below a slot. -/
theorem adoptPageArraySubtree_outcome (ht : s.Tables) (pdptPhys : ℕ) :
    Outcome (fun e => ∃ phys, e = .notReserved phys)
      (fun _ => SubtreeReserved env s (tableAt pdptPhys))
      (adoptPageArraySubtree env s (pdptPhys &&& X86_PTE_ADDR_MASK)) := by
  rw [adoptPageArraySubtree, tableAt_land]
  have hrange : ∀ t i b, link (s.mem t i) = some b → i ∈ List.range 512 :=
    fun _ _ _ h => (ht.of_link h).1
  generalize List.range 512 = l at hrange ⊢
  refine (validateReservedTablePage_outcome _).bind fun _ hpdpt => ?_
  -- The inner loop, for a page directory.
  have hpd : ∀ pd, Outcome (fun e => ∃ phys, e = .notReserved phys)
      (fun _ => ∀ j ∈ l, ∀ c, link (s.mem pd j) = some c → env.reservedTablePage c = true)
      (l.forM fun j =>
        if s.mem pd j &&& X86_PTE_P = 0 ∨ s.mem pd j &&& X86_PTE_PS ≠ 0 then pure ()
        else validateReservedTablePage env (s.mem pd j &&& X86_PTE_ADDR_MASK)) := by
    refine fun pd => forM_outcome fun j _ => ?_
    split_ifs with hskip
    · exact fun c hc => absurd hskip (ht.of_link hc).2.1
    · refine (validateReservedTablePage_outcome _).mono fun _ hres c hc => ?_
      rwa [(ht.of_link hc).2.2]
  have hall : Outcome (fun e => ∃ phys, e = .notReserved phys)
      (fun _ => ∀ i ∈ l, ∀ b, link (s.mem (pdptPhys &&& X86_PTE_ADDR_MASK) i) = some b →
        env.reservedTablePage b = true ∧
          ∀ j ∈ l, ∀ c, link (s.mem b j) = some c → env.reservedTablePage c = true)
      (l.forM fun i => do
        let e3 := s.mem (pdptPhys &&& X86_PTE_ADDR_MASK) i
        if e3 &&& X86_PTE_P = 0 ∨ e3 &&& X86_PTE_PS ≠ 0 then pure ()
        else do
          let pdPhys := e3 &&& X86_PTE_ADDR_MASK
          validateReservedTablePage env pdPhys
          l.forM fun j => do
            let e2 := s.mem (tableAt pdPhys) j
            if e2 &&& X86_PTE_P = 0 ∨ e2 &&& X86_PTE_PS ≠ 0 then pure ()
            else validateReservedTablePage env (e2 &&& X86_PTE_ADDR_MASK)) := by
    refine forM_outcome fun i _ => ?_
    dsimp only
    split_ifs with hskip
    · exact fun b hb => absurd hskip (ht.of_link hb).2.1
    · rw [tableAt_land]
      refine (validateReservedTablePage_outcome _).bind fun _ hres => ?_
      refine (hpd _).mono fun _ hbelow b hb => ?_
      rw [(ht.of_link hb).2.2]
      exact ⟨hres, hbelow⟩
  refine hall.mono fun _ hbelow q c hq hc => ?_
  match q, hq with
  | [], _ =>
    cases hc
    exact hpdpt
  | [i], _ =>
    have hlink : link (s.mem (tableAt pdptPhys) i) = some c := by
      simpa [RadixTable.walk] using hc
    exact (hbelow i (hrange _ _ _ hlink) c hlink).1
  | [i, j], _ =>
    obtain ⟨b, hb, hlink⟩ : ∃ b, link (s.mem (tableAt pdptPhys) i) = some b ∧
        link (s.mem b j) = some c := by
      simpa [RadixTable.walk, Option.bind_eq_some_iff] using hc
    exact (hbelow i (hrange _ _ _ hb) b hb).2 j (hrange _ _ _ hlink) c hlink

/-- The walks after the slot `idx` is given a table of the loader. -/
theorem SlotInv.walk_adopt (v : SlotInv env s₀ idx s) {e pdpt : ℕ} (he : link e = some pdpt)
    (hres : SubtreeReserved env s pdpt) {i : ℕ} {q : List ℕ} (hq : (i :: q).length ≤ 3) :
    (s.write s.root idx e).walk (i :: q) =
      if i = idx then RadixTable.walk link s.mem pdpt q else s.walk (i :: q) := by
  set s' := s.write s.root idx e
  have hmem : ∀ c j, s'.mem c j = if c = s.root ∧ j = idx then e else s.mem c j :=
    fun _ _ => write_apply
  -- Below the root table nothing has changed.
  have hbelow : ∀ b, (∀ r c, r.length ≤ 2 → RadixTable.walk link s.mem b r = some c → c ≠ s.root) →
      RadixTable.walk link s'.mem b q = RadixTable.walk link s.mem b q := by
    intro b hb
    refine walk_congr fun r j c hr hc => ?_
    have hlen := hr.length_le
    simp only [length_append, length_cons, length_nil] at hlen hq
    rw [hmem, if_neg fun h => hb r c (by omega) hc h.1]
  show (link (s'.mem s.root i)).bind (fun b => RadixTable.walk link s'.mem b q) = _
  rw [hmem]
  by_cases hi : i = idx
  · rw [if_pos ⟨rfl, hi⟩, if_pos hi, he, Option.bind_some]
    refine hbelow pdpt fun r c hr hc h => ?_
    have := hres r c hr hc
    rw [h, v.root] at this
    exact nomatch this
  · rw [if_neg fun h => hi h.2, if_neg hi]
    show _ = (link (s.mem s.root i)).bind fun b => RadixTable.walk link s.mem b q
    cases hl : link (s.mem s.root i) with
    | none => rfl
    | some b =>
      refine hbelow b fun r c hr hc => v.ne_root (i := i) (q := r) (by rw [length_cons]; omega) ?_
      show (link (s.mem s.root i)).bind (fun b => RadixTable.walk link s.mem b r) = some c
      rw [hl]
      exact hc

/-- A slot of the `Page` array may lead to reserved tables. -/
theorem SlotInv.adopt (v : SlotInv env s₀ idx s) (hidx : idx < 512) (harray : ¬ BuiltSlot idx)
    {e pdpt : ℕ} (he : link e = some pdpt) (hres : SubtreeReserved env s pdpt) :
    SlotInv env s₀ (idx + 1) (s.write s.root idx e) := by
  have hmem : ∀ c j, (s.write s.root idx e).mem c j =
      if c = s.root ∧ j = idx then e else s.mem c j := fun _ _ => write_apply
  -- A table that is not reserved is reached as before.
  have hold : ∀ q c, q.length ≤ 3 → (s.write s.root idx e).walk q = some c →
      env.reservedTablePage c = false → s.walk q = some c := by
    intro q c hq hc hfree
    cases q with
    | nil => exact hc
    | cons i q =>
      rw [v.walk_adopt he hres hq] at hc
      split_ifs at hc with hi
      · rw [length_cons] at hq
        rw [hres q c (by omega) hc] at hfree
        exact nomatch hfree
      · exact hc
  refine ⟨v.tables.write hidx, v.root, ?_, ?_, ?_, ?_, ?_, v.textStart, v.textEnd⟩
  · exact fun q c hq hc hfree r hr hrc =>
      v.sole q c hq (hold q c hq hc hfree) hfree hr (hold r c hr hrc hfree)
  · intro q c hq hb hc
    cases q with
    | nil =>
      cases hc
      exact v.root
    | cons i q =>
      have hi : i ≠ idx := by
        rintro rfl
        exact harray (hb i rfl)
      rw [v.walk_adopt he hres hq, if_neg hi] at hc
      exact v.built _ c hq hb hc
  · intro i j hi hlt hb
    have hne : i ≠ idx := fun h => harray (h ▸ hb)
    have hentry := v.empty i j hi (by omega) hb
    obtain ⟨t, ht, hzero⟩ := entry_eq_some.1 hentry
    refine entry_eq_some.2 ⟨t, ?_, ?_⟩
    · have hw := v.walk_adopt he hres (i := i) (q := []) (by simp)
      rw [if_neg hne] at hw
      exact hw.trans ht
    · rw [hmem, if_neg fun h => v.ne_root (by simp) ht h.1]
      exact hzero
  · intro i hi
    rw [hmem, if_neg (by omega)]
    exact v.later i (by omega)
  · intro i hi
    rw [hmem, if_neg (by omega)]
    exact v.loader i (by omega)

/-! ## The loop -/

section

variable (ha : BuildAnswers alloc env)

include ha

/-- One slot. -/
theorem SlotInv.step (v : SlotInv env s₀ idx s) (hidx : idx < 512) :
    Outcome (BuildExcused alloc env s₀) (SlotInv env s₀ (idx + 1)) (buildSlot env alloc s idx) := by
  rw [buildSlot]
  split
  next harray =>
    obtain ⟨hstart, hend, hp⟩ := harray
    -- The loader had filled the slot before the call.
    have hloader : LoaderPageArray env s₀ := by
      refine ⟨idx, hstart, hend, ?_⟩
      obtain h | h := v.loader idx le_rfl
      · rwa [← h]
      · exact absurd (by rw [BuildEnv.loaderPml4] at h; rw [h]; rfl) hp
    split
    next => exact hloader
    next hps =>
      have he : link (s.mem (tableAt (env.cr3 &&& X86_PTE_ADDR_MASK)) idx) = some _ :=
        if_pos ⟨hp, not_not.1 hps⟩
      refine ((adoptPageArraySubtree_outcome v.tables _).imp ?_ fun _ h => h).bind fun _ hres => ?_
      · rintro _ ⟨phys, rfl⟩
        exact hloader
      · exact v.adopt hidx (fun hb => hb ⟨hstart, hend⟩) he hres
  next =>
    cases halloc : alloc s with
    | error st =>
      simp only [allocTable, halloc]
      exact ⟨s, v.tables, halloc⟩
    | ok phys =>
      simp only [allocTable, halloc]
      exact v.attach hidx (ha.fresh s phys halloc) (ha.unreserved s phys halloc)

/-- The new root table is empty. -/
theorem SlotInv.init (ht : s₀.Tables) {phys : ℕ} (halloc : alloc s₀ = .ok phys) :
    SlotInv env s₀ ARCH_PML4_KERNEL_START
      { s₀ with mem := update s₀.mem (tableAt phys) fun _ => 0, kernelPml4Phys := phys } := by
  set s : Paging :=
    { s₀ with mem := update s₀.mem (tableAt phys) fun _ => 0, kernelPml4Phys := phys } with hs
  have hroot : ∀ i, s.mem s.root i = 0 := by
    intro i
    show update s₀.mem (tableAt phys) (fun _ => 0) (tableAt phys) i = 0
    rw [update_self]
  have hwalk : ∀ q c, s.walk q = some c → q = [] ∧ c = s.root := by
    intro q c hc
    cases q with
    | nil => exact ⟨rfl, (Option.some.inj hc).symm⟩
    | cons i q =>
      rw [Paging.walk, RadixTable.walk, hroot, link_zero] at hc
      cases hc
  have hfree : env.reservedTablePage s.root = false := ha.unreserved s₀ phys halloc
  refine ⟨ht.zero phys, hfree, ?_, ?_, ?_, fun i _ => hroot i, ?_, rfl, rfl⟩
  · intro q c _ hc _ r _ hr
    rw [(hwalk q c hc).1, (hwalk r c hr).1]
  · intro q c _ _ hc
    rwa [(hwalk q c hc).2]
  · intro i j hi hlt
    omega
  · intro i _
    by_cases hl : env.loaderPml4 = tableAt phys
    · rw [hl]
      exact .inr (hroot i)
    · exact .inl (congrFun (update_of_ne hl _ _) i)

/-- The loop over the kernel half of the root table. -/
theorem SlotInv.run (v : SlotInv env s₀ ARCH_PML4_KERNEL_START s) :
    Outcome (BuildExcused alloc env s₀) (SlotInv env s₀ ARCH_PML4_KERNEL_END)
      ((List.range' ARCH_PML4_KERNEL_START (ARCH_PML4_KERNEL_END - ARCH_PML4_KERNEL_START)).foldlM
        (buildSlot env alloc) s) := by
  have hstart : ARCH_PML4_KERNEL_START = 256 := rfl
  generalize hl : List.range' ARCH_PML4_KERNEL_START
    (ARCH_PML4_KERNEL_END - ARCH_PML4_KERNEL_START) = l
  have hlen : l.length = 256 := by
    rw [← hl]
    exact length_range'
  have hend : ARCH_PML4_KERNEL_END = ARCH_PML4_KERNEL_START + l.length := by rw [hlen]; rfl
  rw [hend]
  refine foldlM_outcome (P := fun seen s =>
    SlotInv env s₀ (ARCH_PML4_KERNEL_START + seen.length) s) v ?_
  intro seen a rest s hsplit v
  -- The slot is the next one.
  have hlt : seen.length < 256 := by
    rw [← hlen, hsplit]
    simp
  have ha' : a = ARCH_PML4_KERNEL_START + seen.length := by
    have hget : l[seen.length]? = some a := by
      rw [hsplit]
      simp
    have hlt' : seen.length < ARCH_PML4_KERNEL_END - ARCH_PML4_KERNEL_START := hlt
    rw [← hl, getElem?_range' hlt', Nat.one_mul] at hget
    exact (Option.some.inj hget).symm
  rw [ha', length_append, length_singleton, ← Nat.add_assoc]
  exact v.step ha (by omega)

end

/-- A page of the kernel half is below a slot of the kernel half. -/
theorem KernelPage.slot {n : ℕ} (h : KernelPage n) :
    ARCH_PML4_KERNEL_START ≤ Arch.slot 0 n ∧ Arch.slot 0 n < ARCH_PML4_KERNEL_END := by
  have hslot : Arch.slot 0 n = n / 2^27 % 512 := rfl
  have hstart : ARCH_PML4_KERNEL_START = 256 := rfl
  have hend : ARCH_PML4_KERNEL_END = 512 := rfl
  unfold KernelPage at h
  omega

/-- After the loop the invariant of the build holds, and no page has a leaf. -/
theorem SlotInv.build (v : SlotInv env s₀ ARCH_PML4_KERNEL_END s) :
    BuildInv s ∧ ∀ n, BuiltPage n → s.pageLeaf n = none := by
  have hentry : ∀ n j, BuiltPage n → s.entry (path 1 n) j = some 0 := fun n j hn =>
    v.empty _ j hn.kernel.slot.1 hn.kernel.slot.2 hn.slot
  have hwalk : ∀ n k, BuiltPage n → 2 ≤ k → k ≤ 3 → s.walk (path k n) = none := by
    intro n k hn h2 h3
    have htwo : s.walk (path 2 n) = none := by
      have hslot := hentry n (slot 1 n) hn
      rw [path_succ (by decide), Paging.walk, walk_concat]
      rw [Paging.entry] at hslot
      rw [hslot]
      exact link_zero
    rcases Nat.lt_or_eq_of_le h3 with h | rfl
    · obtain rfl : k = 2 := by omega
      exact htwo
    · by_contra hthree
      exact walk_path_of_succ (by decide) hthree htwo
  have hnone : ∀ n k, BuiltPage n → 1 ≤ k → k ≤ 3 → s.levelLeaf k n = none := by
    intro n k hn h1 h3
    rcases Nat.eq_or_lt_of_le h1 with rfl | h
    · rw [Paging.levelLeaf, hentry n _ hn]
      rfl
    · rw [Paging.levelLeaf, Paging.entry, RadixTable.entry, ← Paging.walk, hwalk n k hn h h3]
      rfl
  refine ⟨⟨⟨v.tables, ?_, ?_⟩, ?_⟩, ?_⟩
  · exact fun q t hq hb ht => v.sole q t hq ht (v.built q t hq hb ht)
  · intro n hn hw
    obtain ⟨t, ht, -⟩ := entry_eq_some.1 (hentry n 0 hn)
    cases hw.symm.trans ht
  · exact fun j m h2 h3 hm hw => absurd (hwalk m j hm h2 h3) hw
  · intro n hn
    rw [Paging.pageLeaf, hnone n 1 hn le_rfl (by decide), hnone n 2 hn (by decide) (by decide),
      hnone n 3 hn (by decide) le_rfl]
    rfl

end Bongos.Arch
