import Bongos.Arch.PagingBuild
import Bongos.Arch.PagingInvariant
import Mathlib.Tactic.IntervalCases

/-!
# Tables with large leaves

While the kernel's tables are built, a page of the kernel half is mapped by a leaf of one of three
sizes, at the level `1`, `2`, or `3`. `Paging.pageLeaf` reads it. `BuildInv` says that no table
under a slot that the build fills is shared, and that no table below the second level is empty: a
table is only made for a leaf that goes into it. That is why a large leaf never meets a table
(`BuildInv.absent`).
-/

namespace Bongos.Arch

open Mm RadixTable

variable {s s' : Paging} {n m k e t : ℕ} {p q : List ℕ}

/-! ## Pages and paths -/

/-- The indices of a page in the four levels of tables. -/
def digits (n : ℕ) : List ℕ := [n / 2^27 % 512, n / 2^18 % 512, n / 2^9 % 512, n % 512]

/-- The path to the table of a page at a level. -/
def path (k n : ℕ) : List ℕ := (digits n).take k

/-- The slot of a page in its table at a level. -/
def slot (k n : ℕ) : ℕ := (digits n).getD k 0

/-- How many pages a leaf at a level maps. -/
def leafPages (k : ℕ) : ℕ := 2^(27 - 9 * k)

theorem path_length (hk : k ≤ 4) : (path k n).length = k := by
  rw [path, List.length_take]
  exact Nat.min_eq_left hk

theorem path_succ (hk : k < 4) : path (k + 1) n = path k n ++ [slot k n] := by
  interval_cases k <;> rfl

/-- The page numbers of the kernel half. -/
def KernelPage (n : ℕ) : Prop := 2^52 - 2^35 ≤ n ∧ n < 2^52

/-- The indices of a page of the kernel half down to a level tell which leaf of that level it is
in. -/
theorem path_eq_iff (hk : k < 4) (hn : KernelPage n) (hm : KernelPage m) :
    path (k + 1) n = path (k + 1) m ↔ n / leafPages k = m / leafPages k := by
  unfold KernelPage at hn hm
  interval_cases k <;> simp [path, digits, leafPages] <;> omega

/-- A slot of the root table that the build fills itself. -/
def BuiltSlot (i : ℕ) : Prop := ¬ (ARCH_PML4_PAGE_ARRAY_START ≤ i ∧ i < ARCH_PML4_PAGE_ARRAY_END)

/-- A path into the root table or below a slot that the build fills. -/
def BuiltPath (q : List ℕ) : Prop := ∀ i ∈ q.head?, BuiltSlot i

/-- A page of the kernel half below a slot that the build fills. -/
structure BuiltPage (n : ℕ) : Prop where
  kernel : KernelPage n
  slot : BuiltSlot (slot 0 n)

theorem BuiltPage.path (h : BuiltPage n) (k : ℕ) : BuiltPath (path k n) := by
  intro i hi
  rcases k with _ | k
  · simp [Arch.path] at hi
  · have : i = Arch.slot 0 n := by simpa [Arch.path, Arch.slot, digits] using hi.symm
    rw [this]
    exact h.slot

/-! ## Leaves -/

/-- The leaf of a page at one level. -/
def Paging.levelLeaf (s : Paging) (k n : ℕ) : Option ℕ :=
  (s.entry (path k n) (slot k n)).filter fun e => e &&& X86_PTE_P ≠ 0 ∧
    (k = 3 ∨ e &&& X86_PTE_PS ≠ 0)

/-- The leaf of a page, and its level. -/
def Paging.pageLeaf (s : Paging) (n : ℕ) : Option (ℕ × ℕ) :=
  match s.levelLeaf 1 n with
  | some e => some (e, 1)
  | none => match s.levelLeaf 2 n with
    | some e => some (e, 2)
    | none => (s.levelLeaf 3 n).map fun e => (e, 3)

/-- The table of a page one level down is the one that its entry leads to. -/
theorem walk_path_succ (hk : k < 4) (ht : s.walk (path k n) = some t) :
    s.walk (path (k + 1) n) = link (s.mem t (slot k n)) := by
  rw [path_succ hk, Paging.walk, walk_concat, entry_eq_some.2 ⟨t, ht, rfl⟩]
  rfl

theorem levelLeaf_eq (ht : s.walk (path k n) = some t) : s.levelLeaf k n =
    if s.mem t (slot k n) &&& X86_PTE_P ≠ 0 ∧ (k = 3 ∨ s.mem t (slot k n) &&& X86_PTE_PS ≠ 0) then
      some (s.mem t (slot k n)) else none := by
  rw [Paging.levelLeaf, Paging.entry, entry_eq_some.2 ⟨t, ht, rfl⟩, Option.filter_some]
  simp only [decide_eq_true_eq]

theorem levelLeaf_eq_none (h : s.walk (path k n) = none) : s.levelLeaf k n = none := by
  rw [Paging.levelLeaf, Paging.entry, RadixTable.entry, ← Paging.walk, h]
  rfl

/-- Above a table that a page has there is no leaf. -/
theorem levelLeaf_of_walk (hk : k < 3) (h : s.walk (path (k + 1) n) ≠ none) :
    s.levelLeaf k n = none := by
  cases ht : s.walk (path k n) with
  | none => exact levelLeaf_eq_none ht
  | some t =>
    rw [walk_path_succ (by omega) ht] at h
    refine (levelLeaf_eq ht).trans (if_neg fun hleaf => h (if_neg fun hlink => ?_))
    exact hleaf.2.elim (by omega) fun hps => hps hlink.2

/-- A table is reached through the tables before it. -/
theorem walk_path_of_succ (hk : k < 4) (h : s.walk (path (k + 1) n) ≠ none) :
    s.walk (path k n) ≠ none := by
  intro hnone
  rw [path_succ hk, Paging.walk, walk_concat, RadixTable.entry] at h
  rw [Paging.walk] at hnone
  rw [hnone] at h
  exact h rfl

/-- A leaf at a level whose table is there is the leaf of the page. -/
theorem pageLeaf_of_levelLeaf (hk1 : 1 ≤ k) (hk3 : k ≤ 3) (hw : s.walk (path k n) ≠ none)
    (h : s.levelLeaf k n = some e) : s.pageLeaf n = some (e, k) := by
  rw [Paging.pageLeaf]
  interval_cases k
  · rw [h]
  · rw [levelLeaf_of_walk (by decide) hw, h]
  · rw [levelLeaf_of_walk (by decide) (walk_path_of_succ (by decide) hw),
      levelLeaf_of_walk (by decide) hw, h]
    rfl

theorem pageLeaf_congr (h : ∀ k, 1 ≤ k → k ≤ 3 → s'.levelLeaf k n = s.levelLeaf k n) :
    s'.pageLeaf n = s.pageLeaf n := by
  rw [Paging.pageLeaf, Paging.pageLeaf, h 1 le_rfl (by decide), h 2 (by decide) (by decide),
    h 3 (by decide) le_rfl]

/-! ## The invariant -/

/-- Every table has 512 entries. -/
def Paging.Tables (s : Paging) : Prop := ∀ t i, 512 ≤ i → s.mem t i = 0

theorem Paging.Tables.write {i : ℕ} (h : s.Tables) (hi : i < 512) : (s.write t i e).Tables := by
  intro t' j hj
  have hmem : (s.write t i e).mem t' j = if t' = t ∧ j = i then e else s.mem t' j := write_apply
  rw [hmem, if_neg (by omega)]
  exact h t' j hj

/-- A page that is zeroed to be a table. -/
theorem Paging.Tables.zero {b : ℕ} (h : s.Tables) (pml4 : ℕ) :
    Paging.Tables { s with mem := Function.update s.mem b fun _ => 0, kernelPml4Phys := pml4 } := by
  intro t j hj
  show Function.update s.mem b (fun _ => 0) t j = 0
  by_cases ht : t = b
  · rw [ht, Function.update_self]
  · rw [Function.update_of_ne ht]
    exact h t j hj

theorem Paging.Tables.attach {i phys : ℕ} (h : s.Tables) (hi : i < 512) :
    (s.attach t i phys).Tables :=
  (h.zero s.kernelPml4Phys).write hi

/-- No table below a slot that the build fills is shared, and every such slot has a table. -/
structure BuildTree (s : Paging) : Prop where
  tables : s.Tables
  sole : ∀ q t, q.length ≤ 3 → BuiltPath q → s.walk q = some t → Sole link 3 s.mem s.root q t
  pdpt : ∀ n, BuiltPage n → s.walk (path 1 n) ≠ none

/-- Every table below the second level has a leaf under it, except for the tables of the page `n`
down to the level `k`, which may be new. -/
def FullOff (k n : ℕ) (s : Paging) : Prop :=
  ∀ j m, 2 ≤ j → j ≤ 3 → BuiltPage m → s.walk (path j m) ≠ none →
    (j ≤ k → path j m ≠ path j n) → ∃ m', BuiltPage m' ∧ path j m' = path j m ∧ s.pageLeaf m' ≠ none

/-- The invariant of the build: no table is shared, and none is empty below the second level. -/
structure BuildInv (s : Paging) : Prop extends BuildTree s where
  full : FullOff 1 0 s

theorem FullOff.succ (h : FullOff k n s) : FullOff (k + 1) n s :=
  fun j m h2 h3 hm hw hne => h j m h2 h3 hm hw fun hj => hne (by omega)

/-- The invariant exempts nothing, as the second level has no table to exempt. -/
theorem BuildInv.fullOff (v : BuildInv s) (k n : ℕ) : FullOff k n s :=
  fun j m h2 h3 hm hw _ => v.full j m h2 h3 hm hw fun hj => by omega

theorem slot_lt : slot k n < 512 := by
  match k with
  | 0 | 1 | 2 | 3 => exact Nat.mod_lt _ (by decide)
  | k + 4 => simp [slot, digits]

/-! ## Writes -/

section

variable (v : BuildTree s) (hn : BuiltPage n) (ht : s.walk (path k n) = some t)

include v hn ht

/-- A page that has no leaf has no large leaf on the way. -/
theorem small_of_pageLeaf_eq_none (hk : k ≤ 2) (hleaf : s.pageLeaf n = none)
    (hp : s.mem t (slot k n) &&& X86_PTE_P ≠ 0) : s.mem t (slot k n) &&& X86_PTE_PS = 0 := by
  by_contra hps
  rcases Nat.eq_zero_or_pos k with rfl | hk1
  · -- The slot of the root table has a table.
    exact v.pdpt n hn ((walk_path_succ (by decide) ht).trans (if_neg fun h => hps h.2))
  · have hlevel := (levelLeaf_eq ht).trans (if_pos ⟨hp, .inr hps⟩)
    rw [pageLeaf_of_levelLeaf hk1 (by omega) (by simp [ht]) hlevel] at hleaf
    exact nomatch hleaf

/-- A call extended the tables of the page `n` to the level `k`, and changed no leaf. -/
structure Extends (k n : ℕ) (s s' : Paging) : Prop where
  same : s' = { s with mem := s'.mem }
  tree : BuildTree s'
  full : FullOff k n s'
  leaf : ∀ m, BuiltPage m → s'.pageLeaf m = s.pageLeaf m

variable (hfull : FullOff k n s)

include hfull

/-- A new table on the way to a page. -/
theorem BuildTree.attach (hk2 : k ≤ 2) (hold : s.mem t (slot k n) &&& X86_PTE_P = 0) {phys : ℕ}
    (hfresh : Unused link 3 s.mem s.root (tableAt phys)) :
    (s.attach t (slot k n) phys).walk (path (k + 1) n) = some (tableAt phys) ∧
      Extends (k + 1) n s (s.attach t (slot k n) phys) := by
  have hlen : (path k n).length = k := path_length (by omega)
  have hcan := canAttach (v.sole _ t (by omega) (hn.path k) ht) ht (by omega) hold hfresh
  have hwalk := fun q => Paging.walk_attach hcan (r := q)
  have hnext : path k n ++ [slot k n] = path (k + 1) n := (path_succ (by omega)).symm
  rw [hnext] at hwalk
  have hleaf : ∀ m, (s.attach t (slot k n) phys).pageLeaf m = s.pageLeaf m := by
    intro m
    refine pageLeaf_congr fun j _ hj => ?_
    have hlenj : (path j m).length = j := path_length (by omega)
    rw [Paging.levelLeaf, Paging.levelLeaf, Paging.entry_attach hcan (by omega), hnext]
    split_ifs with hnew hlink
    · -- The new table is empty, and there was none.
      have hnone : s.walk (path j m) = none := by
        rw [hnew, walk_path_succ (by omega) ht, link_of_absent hold]
      rw [Paging.entry, RadixTable.entry, ← Paging.walk, hnone]
      rfl
    · -- The entry that leads to the new table is no leaf, and was not present.
      have hj3 : j ≠ 3 := by
        have := congrArg List.length hlink.1
        omega
      have hps := (tableEntry_spec phys).2.2.1
      have hs : s.entry (path j m) (slot j m) = some (s.mem t (slot k n)) := by
        rw [hlink.1, hlink.2]
        exact entry_eq_some.2 ⟨t, ht, rfl⟩
      rw [hs, Option.filter_some, Option.filter_some, if_neg, if_neg]
      · simp only [hold, ne_eq, not_true_eq_false, false_and, decide_false, Bool.false_eq_true,
          not_false_eq_true]
      · simp only [hj3, hps, ne_eq, not_true_eq_false, or_self, and_false, decide_false,
          Bool.false_eq_true, not_false_eq_true]
    · rfl
  refine ⟨(hwalk _ (by rw [path_length] <;> omega)).trans (if_pos rfl), rfl,
    ⟨v.tables.attach slot_lt, ?_, ?_⟩, ?_, fun m _ => hleaf m⟩
  · exact fun q t' hq hb hc => sole_attach hcan hq hc fun hc => v.sole q t' hq hb hc
  · intro m hm
    rw [hwalk _ (by rw [path_length] <;> omega)]
    split_ifs
    · exact Option.some_ne_none _
    · exact v.pdpt m hm
  · intro j m h2 h3 hm hw hne
    have hlenj : (path j m).length = j := path_length (by omega)
    have hnew : path j m ≠ path (k + 1) n := by
      intro h
      have hj : j = k + 1 := by
        rw [← hlenj, h]
        exact path_length (by omega)
      exact hne hj.le (hj ▸ h)
    rw [hwalk _ (by omega), if_neg hnew] at hw
    obtain ⟨m', hm', hpath, hmapped⟩ := hfull j m h2 h3 hm hw fun hj => hne (by omega)
    exact ⟨m', hm', hpath, by rwa [hleaf m']⟩

/-- A leaf that is written where there was none is the leaf of the pages that it covers, and of no
other. -/
theorem BuildTree.write (hk1 : 1 ≤ k) (hk3 : k ≤ 3) (hold : s.mem t (slot k n) &&& X86_PTE_P = 0)
    (hp : e &&& X86_PTE_P ≠ 0) (hps : k = 3 ∨ e &&& X86_PTE_PS ≠ 0) :
    BuildInv (s.write t (slot k n) e) ∧ ∀ m, BuiltPage m → (s.write t (slot k n) e).pageLeaf m =
      if m / leafPages k = n / leafPages k then some (e, k) else s.pageLeaf m := by
  have hlen : (path k n).length = k := path_length (by omega)
  have hsole := v.sole _ t (by omega) (hn.path k) ht
  set s' := s.write t (slot k n) e
  have hwalk : ∀ q, q.length ≤ 3 → s'.walk q = s.walk q := by
    intro q hq
    rcases hps with hk | hps
    · exact walk_write_sole hsole (by omega) hq
    · exact walk_write_leaf (link_of_absent hold) (if_neg fun h => hps h.2)
  have hentry : ∀ q j, q.length ≤ 3 → s'.entry q j =
      if q = path k n ∧ j = slot k n then some e else s.entry q j :=
    fun q j hq => entry_write hsole ht hq (hwalk q hq)
  have hleaf : ∀ m, BuiltPage m → s'.pageLeaf m =
      if m / leafPages k = n / leafPages k then some (e, k) else s.pageLeaf m := by
    intro m hm
    have hiff := path_eq_iff (k := k) (by omega) hm.kernel hn.kernel
    split_ifs with hsame
    · have hpath := hiff.2 hsame
      rw [path_succ (by omega), path_succ (by omega)] at hpath
      obtain ⟨hpath, hslot⟩ := List.append_inj' hpath rfl
      rw [List.singleton_inj] at hslot
      refine pageLeaf_of_levelLeaf hk1 hk3 ?_ ?_
      · rw [hpath, hwalk _ (by omega), ht]
        exact Option.some_ne_none t
      · rw [Paging.levelLeaf, hpath, hslot, hentry _ _ (by omega), if_pos ⟨rfl, rfl⟩,
          Option.filter_some, if_pos]
        simpa using ⟨hp, hps⟩
    · refine pageLeaf_congr fun j _ hj => ?_
      have hlenj : (path j m).length = j := path_length (by omega)
      rw [Paging.levelLeaf, Paging.levelLeaf, hentry _ _ (by omega), if_neg]
      rintro ⟨hpath, hslot⟩
      have hjk : j = k := by rw [← hlenj, hpath, hlen]
      subst hjk
      exact hsame (hiff.1 (by rw [path_succ (by omega), path_succ (by omega), hpath, hslot]))
  refine ⟨⟨⟨v.tables.write slot_lt, ?_, ?_⟩, ?_⟩, hleaf⟩
  · intro q t' hq hb hc r hr hrc
    have hc' := (hwalk q hq).symm.trans hc
    have hrc' := (hwalk r hr).symm.trans hrc
    exact v.sole q t' hq hb hc' hr hrc'
  · intro m hm
    rw [hwalk _ (by rw [path_length] <;> omega)]
    exact v.pdpt m hm
  · intro j m h2 h3 hm hw _
    rw [hwalk _ (by rw [path_length] <;> omega)] at hw
    by_cases hpath : path j m = path j n
    · -- The page itself is now mapped under its tables.
      refine ⟨n, hn, hpath.symm, ?_⟩
      rw [hleaf n hn, if_pos rfl]
      exact Option.some_ne_none _
    · obtain ⟨m', hm', hpath', hmapped⟩ := hfull j m h2 h3 hm hw fun _ => hpath
      refine ⟨m', hm', hpath', ?_⟩
      rw [hleaf m' hm']
      split_ifs
      · exact Option.some_ne_none _
      · exact hmapped

/-! ## What a call meets -/

/-- The memory manager has no page for a table, and says why. -/
def NoTable (alloc : TableAnswers) (st : Status) : Prop :=
  ∃ s : Paging, s.Tables ∧ alloc s = .error st

/-- `getOrAllocTable` on the way to a page without a leaf: the next table, or no memory. -/
theorem getOrAllocTable_extends {alloc : TableAnswers} (ha : FreshTables alloc) (hk : k ≤ 2)
    (hleaf : s.pageLeaf n = none) :
    (∃ st, getOrAllocTable alloc s t (slot k n) = (.error st, s) ∧ NoTable alloc st) ∨
      ∃ t' s', getOrAllocTable alloc s t (slot k n) = (.ok t', s') ∧
        s'.walk (path (k + 1) n) = some t' ∧ Extends (k + 1) n s s' := by
  by_cases hp : s.mem t (slot k n) &&& X86_PTE_P = 0
  · cases halloc : alloc s with
    | error st =>
      exact .inl ⟨st, by simp [getOrAllocTable, hp, allocTable, halloc], s, v.tables, halloc⟩
    | ok phys =>
      obtain ⟨hwalk, hext⟩ := v.attach hn ht hfull hk hp (ha.fresh s phys halloc)
      refine .inr ⟨_, _, ?_, hwalk, hext⟩
      simp [getOrAllocTable, hp, allocTable, halloc, Paging.attach, RadixTable.attach, Paging.write,
        tableEntry]
  · have hps := small_of_pageLeaf_eq_none v hn ht hk hleaf hp
    refine .inr ⟨tableAt (s.mem t (slot k n)), s, ?_, ?_, rfl, v, hfull.succ, fun _ _ => rfl⟩
    · simp [getOrAllocTable, hp, hps]
    · exact (walk_path_succ (by omega) ht).trans (if_pos ⟨hp, hps⟩)

/-- Where no page that a leaf would cover has one, the slot for it is free: a large leaf of one of
them would be their own, and a table would have a leaf under it. -/
theorem absent_of_pageLeaf_eq_none (hk1 : 1 ≤ k) (hk3 : k ≤ 3)
    (hleaf : ∀ m, BuiltPage m → m / leafPages k = n / leafPages k → s.pageLeaf m = none) :
    s.mem t (slot k n) &&& X86_PTE_P = 0 := by
  by_contra hp
  rcases Nat.lt_or_eq_of_le hk3 with hk | rfl
  · have hps := small_of_pageLeaf_eq_none v hn ht (by omega) (hleaf n hn rfl) hp
    have hw : s.walk (path (k + 1) n) ≠ none := by
      rw [walk_path_succ (by omega) ht, link, if_pos ⟨hp, hps⟩]
      exact Option.some_ne_none _
    obtain ⟨m, hm, hpath, hmapped⟩ := hfull (k + 1) n (by omega) (by omega) hn hw (by omega)
    exact hmapped (hleaf m hm ((path_eq_iff (by omega) hm.kernel hn.kernel).1 hpath))
  · have hlevel := (levelLeaf_eq ht).trans (if_pos ⟨hp, .inl rfl⟩)
    have hsome := pageLeaf_of_levelLeaf (by decide) le_rfl (by simp [ht]) hlevel
    rw [hleaf n hn rfl] at hsome
    cases hsome

end

end Bongos.Arch
