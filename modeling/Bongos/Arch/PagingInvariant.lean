import Bongos.Arch.Paging
import Bongos.Bits
import Bongos.RangeMap

/-!
# The tables of the kernel virtual area

The four levels of tables are a radix table of depth three: `link` reads the entries of the first
three levels, and the page tables are the tables of the last depth. `PagingInv` says that no table
is shared and that the kernel virtual area has no large leaf. Then the leaf of a page of the area
sits in one slot, `kvaPte` reads it, and each store of `paging.c` is one of the two writes of
`RadixTable`: `getOrAllocTable` attaches an empty table (`PagingInv.attach`) and the others write a
page table (`PagingInv.writeLeaf`). The loops follow by induction over the pages of the range.
-/

namespace Bongos.Arch

open Mm RadixTable

/-! ## Entries and indices -/

/-- The table that an entry above the last level points to. -/
def link (entry : ℕ) : Option ℕ :=
  if entry &&& X86_PTE_P ≠ 0 ∧ entry &&& X86_PTE_PS = 0 then some (tableAt entry) else none

/-- The bits of an address and the flags of an entry can be masked apart. -/
theorem addr_or_land (a f g : ℕ) :
    ((a &&& X86_PTE_ADDR_MASK) ||| f) &&& g = (a &&& (X86_PTE_ADDR_MASK &&& g)) ||| (f &&& g) := by
  rw [Nat.and_or_distrib_right, Nat.land_assoc]

/-- A flag outside the address bits is read off the flags. -/
theorem addr_or_land_flag {a f g : ℕ} (hg : X86_PTE_ADDR_MASK &&& g = 0) :
    ((a &&& X86_PTE_ADDR_MASK) ||| f) &&& g = f &&& g := by
  rw [addr_or_land, hg, Nat.and_zero, Nat.zero_or]

/-- The address is read off the address bits. -/
theorem addr_or_land_mask {a f : ℕ} (hf : f &&& X86_PTE_ADDR_MASK = 0) :
    ((a &&& X86_PTE_ADDR_MASK) ||| f) &&& X86_PTE_ADDR_MASK = a &&& X86_PTE_ADDR_MASK := by
  rw [addr_or_land, hf, Nat.and_self, Nat.or_zero]

/-- The entry that `getOrAllocTable` writes. -/
def tableEntry (phys : ℕ) : ℕ := (phys &&& X86_PTE_ADDR_MASK) ||| X86_PTE_P ||| X86_PTE_W

/-- It is present, not a user's, not a leaf, and points to the new table. -/
theorem tableEntry_spec (phys : ℕ) :
    tableEntry phys &&& X86_PTE_P ≠ 0 ∧ tableEntry phys &&& X86_PTE_US = 0 ∧
      tableEntry phys &&& X86_PTE_PS = 0 ∧ tableAt (tableEntry phys) = tableAt phys := by
  rw [tableEntry, Nat.lor_assoc, tableAt, addr_or_land_mask (by decide),
    addr_or_land_flag (by decide), addr_or_land_flag (by decide), addr_or_land_flag (by decide)]
  exact ⟨by decide, by decide, by decide, rfl⟩

theorem link_table (phys : ℕ) : link (tableEntry phys) = some (tableAt phys) := by
  obtain ⟨hp, -, hps, ht⟩ := tableEntry_spec phys
  rw [link, if_pos ⟨hp, hps⟩, ht]

theorem link_zero : link 0 = none := by decide

/-- The flags fit in four bits. -/
theorem exists_low_bits (flags : VmmFlags) : ∃ k : Fin 16, flags &&& 15 = BitVec.ofNat 32 k := by
  have hlt : (flags &&& 15).toNat < 16 := by
    exact Nat.and_lt_two_pow _ (n := 4) (by decide)
  exact ⟨⟨_, hlt⟩, by simp⟩

/-- There are four values of the cache bits. -/
theorem cache_cases (flags : VmmFlags) :
    flags &&& VMM_CACHE_MASK = VMM_CACHE_WB ∨ flags &&& VMM_CACHE_MASK = VMM_CACHE_WC ∨
      flags &&& VMM_CACHE_MASK = VMM_CACHE_UC ∨ flags &&& VMM_CACHE_MASK = VMM_CACHE_MASK := by
  have h15 : flags &&& VMM_CACHE_MASK = (flags &&& 15) &&& VMM_CACHE_MASK := by
    rw [BitVec.and_assoc]; rfl
  obtain ⟨k, hk⟩ := exists_low_bits flags
  rw [h15, hk]
  clear hk
  revert k
  decide

/-- What `archMapPages` puts into the flags of a leaf. -/
theorem leafFlags_spec (flags : VmmFlags) :
    leafFlags flags &&& X86_PTE_ADDR_MASK = 0 ∧ leafFlags flags &&& X86_PTE_P ≠ 0 ∧
      leafFlags flags &&& X86_PTE_NX ≠ 0 ∧
      (leafFlags flags &&& X86_PTE_W ≠ 0 ↔ flags &&& VMM_WRITE ≠ 0) ∧
      (leafFlags flags &&& X86_PTE_PCD ≠ 0 ↔ flags &&& VMM_CACHE_MASK = VMM_CACHE_UC) ∧
      (leafFlags flags &&& X86_PTE_PWT ≠ 0 ↔ flags &&& VMM_CACHE_MASK = VMM_CACHE_WC ∨
        flags &&& VMM_CACHE_MASK = VMM_CACHE_UC) := by
  unfold leafFlags
  rcases cache_cases flags with h | h | h | h <;> by_cases hw : flags &&& VMM_WRITE = 0 <;>
    simp only [h, hw, ne_eq, not_true_eq_false, not_false_eq_true, if_true, if_false] <;> decide

/-- The slots of the root table that cover the kernel virtual area. -/
def KvaSlot (i : ℕ) : Prop := pml4Index VM_KVA_BASE ≤ i ∧ i < pml4Index VM_KVA_END

/-- The page numbers of the kernel virtual area. -/
def KvaPage (n : ℕ) : Prop := VM_KVA_BASE / X86_PTE_SIZE_4K ≤ n ∧ n < VM_KVA_END / X86_PTE_SIZE_4K

instance (n : ℕ) : Decidable (KvaPage n) := inferInstanceAs (Decidable (_ ∧ _))

/-- The path to the page table of a page. -/
def ptPath (n : ℕ) : List ℕ :=
  [pml4Index (n * X86_PTE_SIZE_4K), pdptIndex (n * X86_PTE_SIZE_4K), pdIndex (n * X86_PTE_SIZE_4K)]

/-- The slot of a page in its page table. -/
def ptSlot (n : ℕ) : ℕ := ptIndex (n * X86_PTE_SIZE_4K)

/-- The indices of an address are the digits of its page. -/
theorem index_add {n o : ℕ} (ho : o < X86_PTE_SIZE_4K) :
    pml4Index (n * X86_PTE_SIZE_4K + o) = n / 2^27 % 512 ∧
      pdptIndex (n * X86_PTE_SIZE_4K + o) = n / 2^18 % 512 ∧
      pdIndex (n * X86_PTE_SIZE_4K + o) = n / 2^9 % 512 ∧
      ptIndex (n * X86_PTE_SIZE_4K + o) = n % 512 := by
  have hmask : ∀ x, x &&& 511 = x % 512 := fun x => Nat.and_two_pow_sub_one_eq_mod x 9
  rw [size_4k] at ho ⊢
  simp only [pml4Index, pdptIndex, pdIndex, ptIndex, hmask, Nat.shiftRight_eq_div_pow]
  omega

theorem index_eq (n : ℕ) : pml4Index (n * X86_PTE_SIZE_4K) = n / 2^27 % 512 ∧
      pdptIndex (n * X86_PTE_SIZE_4K) = n / 2^18 % 512 ∧
      pdIndex (n * X86_PTE_SIZE_4K) = n / 2^9 % 512 ∧ ptIndex (n * X86_PTE_SIZE_4K) = n % 512 := by
  have h := index_add (n := n) (o := 0) (by decide)
  rwa [Nat.add_zero] at h

theorem kvaSlot_iff {i : ℕ} : KvaSlot i ↔ 384 ≤ i ∧ i < 448 := by
  rw [KvaSlot, show pml4Index VM_KVA_BASE = 384 by decide,
    show pml4Index VM_KVA_END = 448 by decide]

theorem kvaPage_iff {n : ℕ} : KvaPage n ↔ 0xFFFFC00000000 ≤ n ∧ n < 0xFFFFE00000000 := by
  rw [KvaPage, size_4k, VM_KVA_BASE, VM_KVA_END]

/-- A page of the area is below a slot of the area. -/
theorem KvaPage.slot {n : ℕ} (h : KvaPage n) : KvaSlot (pml4Index (n * X86_PTE_SIZE_4K)) := by
  rw [kvaPage_iff] at h
  rw [kvaSlot_iff, (index_eq n).1]
  omega

/-- Two pages of the area have two slots. -/
theorem KvaPage.inj {n m : ℕ} (hn : KvaPage n) (hm : KvaPage m) (hpath : ptPath n = ptPath m)
    (hslot : ptSlot n = ptSlot m) : n = m := by
  rw [kvaPage_iff] at hn hm
  obtain ⟨n4, n3, n2, n1⟩ := index_eq n
  obtain ⟨m4, m3, m2, m1⟩ := index_eq m
  simp only [ptPath, ptSlot, n4, n3, n2, n1, m4, m3, m2, m1, List.cons.injEq,
    and_true] at hpath hslot
  omega

/-! ## The invariant -/

/-- The entry of the tables of a state at a path and an index. -/
abbrev Paging.entry (s : Paging) (q : List ℕ) (j : ℕ) : Option ℕ :=
  RadixTable.entry link s.mem s.root q j

/-- The table of a state at a path. -/
abbrev Paging.walk (s : Paging) (q : List ℕ) : Option ℕ := RadixTable.walk link s.mem s.root q

/-- A path into the root table or below a slot of the kernel virtual area. -/
def KvaPath (q : List ℕ) : Prop := ∀ i ∈ q.head?, KvaSlot i

/-- No table is shared, and neither the root table nor a table of the kernel virtual area has a
large leaf. -/
structure PagingInv (s : Paging) : Prop where
  unshared : Unshared link 3 s.mem s.root
  small : ∀ q j e, q.length ≤ 2 → KvaPath q → s.entry q j = some e → e &&& X86_PTE_P ≠ 0 →
    e &&& X86_PTE_PS = 0

/-- The leaf of a page of the kernel virtual area, if it is present. -/
def kvaPte (s : Paging) (n : ℕ) : Option ℕ :=
  if KvaPage n then (s.entry (ptPath n) (ptSlot n)).filter (fun e => e &&& X86_PTE_P ≠ 0) else none

/-- A change of the tables of the kernel virtual area only. -/
structure KvaOnly (s s' : Paging) : Prop where
  same : s' = { s with mem := s'.mem }
  entry_eq : ∀ q j, q.length ≤ 3 → ¬ KvaPath (q ++ [j]) → s'.entry q j = s.entry q j

/-- The answers of the memory manager: a page that is not a table yet, or an error. -/
structure FreshTables (alloc : TableAnswers) : Prop where
  fresh : ∀ s phys, alloc s = .ok phys → Unused link 3 s.mem s.root (tableAt phys)
  error_ne_ok : ∀ s st, alloc s = .error st → st ≠ .ok

variable {s s' s'' : Paging} {alloc : TableAnswers} {n m t j : ℕ} {q : List ℕ}

theorem KvaOnly.refl (s : Paging) : KvaOnly s s := ⟨rfl, fun _ _ _ _ => rfl⟩

theorem KvaOnly.trans (h : KvaOnly s s') (h' : KvaOnly s' s'') : KvaOnly s s'' := by
  refine ⟨?_, fun q j hq hk => (h'.entry_eq q j hq hk).trans (h.entry_eq q j hq hk)⟩
  rw [h'.same, h.same]

/-- A call changed tables of the kernel virtual area only, and its leaves are now `m`. -/
structure KvaChange (s s' : Paging) (m : ℕ → Option ℕ) : Prop where
  inv : PagingInv s'
  only : KvaOnly s s'
  pte : kvaPte s' = m

theorem KvaChange.refl (v : PagingInv s) : KvaChange s s (kvaPte s) := ⟨v, .refl s, rfl⟩

theorem KvaChange.trans {m m' : ℕ → Option ℕ} (h : KvaChange s s' m) (h' : KvaChange s' s'' m') :
    KvaChange s s'' m' :=
  ⟨h'.inv, h.only.trans h'.only, h'.pte⟩

theorem KvaPath.of_append {i : ℕ} (h : KvaPath (q ++ [i])) : KvaPath q := by
  cases q with
  | nil => simp [KvaPath]
  | cons a q => simpa [KvaPath] using h

theorem KvaPath.append {i : ℕ} (h : KvaPath (q ++ [i])) : KvaPath (q ++ [i] ++ [j]) := by
  cases q with
  | nil => simpa [KvaPath] using h
  | cons a q => simpa [KvaPath] using h

/-- An entry that is not present points nowhere. -/
theorem link_of_absent {e : ℕ} (h : e &&& X86_PTE_P = 0) : link e = none :=
  if_neg fun h' => h'.1 h

/-- An entry of the last level is found by its path. -/
theorem findLeafPte_eq (v : PagingInv s) :
    findLeafPte s (n * X86_PTE_SIZE_4K) = (s.walk (ptPath n)).map fun t => (t, ptSlot n) := by
  simp only [findLeafPte, Paging.walk, ptPath, RadixTable.walk]
  set e4 := s.mem s.root (pml4Index (n * X86_PTE_SIZE_4K)) with he4
  split_ifs with h4 h3 h2
  · simp [link_of_absent h4]
  all_goals
    have hps : e4 &&& X86_PTE_PS = 0 := v.small [] _ e4 (by simp) (by simp [KvaPath]) rfl h4
    have hlink : link e4 = some (tableAt e4) := if_pos ⟨h4, hps⟩
    rw [hlink, Option.bind_some]
  · rw [link, if_neg (by tauto)]
    rfl
  · rw [link, if_pos (by tauto), Option.bind_some, link, if_neg (by tauto)]
    rfl
  · rw [link, if_pos (by tauto), Option.bind_some, link, if_pos (by tauto)]
    rfl

/-! ## The two writes -/

/-- The state after `getOrAllocTable` has allocated a table. -/
def Paging.attach (s : Paging) (table idx phys : ℕ) : Paging :=
  { s with mem := RadixTable.attach s.mem table idx (tableEntry phys) (tableAt phys) 0 }

section

variable {phys : ℕ}

theorem canAttach (hsole : Sole link 3 s.mem s.root q t) (ht : s.walk q = some t)
    (hq : q.length ≤ 2) (hold : s.mem t j &&& X86_PTE_P = 0)
    (hfresh : Unused link 3 s.mem s.root (tableAt phys)) :
    CanAttach link 3 s.mem s.root q t j (tableEntry phys) (tableAt phys) 0 :=
  ⟨hsole, ht, by omega, link_of_absent hold, link_table phys, hfresh, link_zero⟩

variable (h : CanAttach link 3 s.mem s.root q t j (tableEntry phys) (tableAt phys) 0) {r : List ℕ}
  (hr : r.length ≤ 3)

include h hr

theorem Paging.walk_attach : (s.attach t j phys).walk r =
    if r = q ++ [j] then some (tableAt phys) else s.walk r := RadixTable.walk_attach h hr

theorem Paging.entry_attach (j' : ℕ) : (s.attach t j phys).entry r j' =
    if r = q ++ [j] then some 0
    else if r = q ∧ j' = j then some (tableEntry phys) else s.entry r j' :=
      RadixTable.entry_attach h hr

end

/-- `getOrAllocTable` may attach an empty table: no leaf appears or disappears. -/
theorem PagingInv.attach (v : PagingInv s) (hq : q.length ≤ 2) (hk : KvaPath (q ++ [j]))
    (ht : s.walk q = some t) (hold : s.mem t j &&& X86_PTE_P = 0) {phys : ℕ}
    (hfresh : Unused link 3 s.mem s.root (tableAt phys)) :
    KvaChange s (s.attach t j phys) (kvaPte s) ∧
      (s.attach t j phys).walk (q ++ [j]) = some (tableAt phys) := by
  have hcan := canAttach (v.unshared.sole ht (by omega)) ht hq hold hfresh
  refine ⟨⟨⟨unshared_attach v.unshared hcan, ?_⟩, ⟨rfl, ?_⟩, ?_⟩, ?_⟩
  · intro q' j' e' hq' hk' he' hp
    rw [Paging.entry_attach hcan (by omega)] at he'
    split_ifs at he' with h1 h2
    · cases he'
      exact absurd rfl hp
    · cases he'
      exact (tableEntry_spec phys).2.2.1
    · exact v.small q' j' e' hq' hk' he' hp
  · intro q' j' hq' hk'
    rw [Paging.entry_attach hcan hq', if_neg, if_neg]
    · rintro ⟨rfl, rfl⟩
      exact hk' hk
    · rintro rfl
      exact hk' hk.append
  · funext n
    unfold kvaPte
    split_ifs with hn
    · rw [Paging.entry_attach hcan (by simp [ptPath])]
      split_ifs with h1 h2
      · -- The page has a page table now, and no leaf in it yet.
        have hnone : s.entry (ptPath n) (ptSlot n) = none := by
          have hw : s.walk (ptPath n) = none := by
            rw [h1, Paging.walk, walk_concat, entry_eq_some.2 ⟨t, ht, rfl⟩]
            exact link_of_absent hold
          exact congrArg _ hw
        rw [hnone]
        rfl
      · rw [← h2.1] at hq
        simp [ptPath] at hq
      · rfl
    · rfl
  · exact (Paging.walk_attach hcan (by simp; omega)).trans (if_pos rfl)

/-- A store in a page table of the kernel virtual area changes the leaf of one page. -/
theorem PagingInv.writeLeaf (v : PagingInv s) (hn : KvaPage n) (ht : s.walk (ptPath n) = some t)
    (e : ℕ) : KvaChange s (s.write t (ptSlot n) e)
      (Function.update (kvaPte s) n ((some e).filter fun e => e &&& X86_PTE_P ≠ 0)) := by
  have hlen : (ptPath n).length = 3 := rfl
  have hsole := v.unshared.sole ht hlen.le
  have hentry : ∀ q' j', q'.length ≤ 3 → (s.write t (ptSlot n) e).entry q' j' =
      if q' = ptPath n ∧ j' = ptSlot n then some e else s.entry q' j' := fun q' j' hq' =>
    entry_write hsole ht hq' (walk_write_sole hsole hlen hq')
  refine ⟨⟨v.unshared.congr fun _ => walk_write_sole hsole hlen, ?_⟩, ⟨rfl, ?_⟩, ?_⟩
  · intro q' j' e' hq' hk' he' hp
    have hne : q' ≠ ptPath n := by
      rintro rfl
      omega
    rw [hentry q' j' (by omega), if_neg (fun h => hne h.1)] at he'
    exact v.small q' j' e' hq' hk' he' hp
  · intro q' j' hq' hk'
    rw [hentry q' j' hq', if_neg]
    rintro ⟨rfl, rfl⟩
    exact hk' (by simpa [KvaPath, ptPath] using hn.slot)
  · funext m
    by_cases hm : m = n
    · subst hm
      rw [Function.update_self, kvaPte, if_pos hn, hentry _ _ hlen.le, if_pos ⟨rfl, rfl⟩]
    · rw [Function.update_of_ne hm, kvaPte, kvaPte]
      split_ifs with hkva
      · rw [hentry _ _ (by simp [ptPath]), if_neg]
        exact fun h => hm (hkva.inj hn h.1 h.2)
      · rfl

/-- The leaf of a page, read in its page table. -/
theorem kvaPte_eq (hn : KvaPage n) : kvaPte s n =
    ((s.walk (ptPath n)).map fun t => s.mem t (ptSlot n)).filter fun e => e &&& X86_PTE_P ≠ 0 :=
  if_pos hn

theorem kvaPte_of_walk (hn : KvaPage n) (ht : s.walk (ptPath n) = some t) :
    kvaPte s n = (some (s.mem t (ptSlot n))).filter fun e => e &&& X86_PTE_P ≠ 0 := by
  rw [kvaPte_eq hn, ht]
  rfl

end Bongos.Arch
