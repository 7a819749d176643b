import Bongos.Arch.PagingLeaves
import Bongos.FallibleLoop
import Mathlib.Tactic.Ring

/-!
# What `buildMapRange` maps

A call of `buildMapRange` over pages without a leaf gives each of them one, whatever sizes the loop
picks, and changes no other leaf (`buildMapRange_spec`). The only panics are those of a table that
cannot be allocated. `Leaf` says what the leaf of one page is: where it leads, its flags, and when
it may be large. `Mapped` says that the pages of a set have such leaves and all others those that
they had, and `Mapped.loop` puts calls for sets that are apart together.
-/

namespace Bongos.Arch

open Mm RadixTable FallibleLoop

variable {s s' s'' : Paging} {alloc : TableAnswers} {env : BuildEnv} {large : Bool}
  {n m p c c' f g k t i : ℕ} {W W' : ℕ → ℕ → ℕ → Prop}

/-! ## Entries -/

/-- The size of a leaf at a level. -/
def leafBytes (k : ℕ) : ℕ := 2^(39 - 9 * k)

/-- The leaf that `buildMapRange` writes at a level. -/
def leafEntry (k pa flags : ℕ) : ℕ :=
  (pa &&& X86_PTE_ADDR_MASK &&& (2^64 - leafBytes k)) |||
    (flags ||| if k = 3 then 0 else X86_PTE_PS)

/-- The flags that `buildMapRange` is called with: present, and none in the address. -/
structure LeafFlags (f : ℕ) : Prop where
  addr : f &&& X86_PTE_ADDR_MASK = 0
  present : f &&& X86_PTE_P ≠ 0

/-- A flag of a leaf is one of the flags it was written with. -/
theorem leafEntry_land (hg : X86_PTE_ADDR_MASK &&& g = 0) (hps : X86_PTE_PS &&& g = 0) (pa : ℕ) :
    leafEntry k pa f &&& g = f &&& g := by
  have hzero : (if k = 3 then 0 else X86_PTE_PS) &&& g = 0 := by
    split_ifs
    · exact Nat.zero_and g
    · exact hps
  rw [leafEntry, Nat.and_or_distrib_right, Nat.and_or_distrib_right, hzero, Nat.or_zero,
    Nat.land_assoc, Nat.land_comm (2^64 - leafBytes k) g, Nat.land_assoc,
    ← Nat.land_assoc X86_PTE_ADDR_MASK g, hg, Nat.zero_and, Nat.and_zero, Nat.zero_or]

theorem leafEntry_large (hk : k ≠ 3) (pa : ℕ) : leafEntry k pa f &&& X86_PTE_PS ≠ 0 := by
  intro h
  have h7 : X86_PTE_PS.testBit 7 = true := by decide
  have hbit : (leafEntry k pa f &&& X86_PTE_PS).testBit 7 = true := by
    rw [leafEntry, if_neg hk, Nat.testBit_and, Nat.testBit_or, Nat.testBit_or, h7]
    simp
  rw [h] at hbit
  simp at hbit

theorem leafBytes_eq (hk : k ≤ 3) : leafBytes k = leafPages k * X86_PTE_SIZE_4K := by
  interval_cases k <;> decide

/-- The address bits of a leaf. -/
theorem leafEntry_addr (hf : LeafFlags f) (hk : k ≤ 3) (hp : p < 2^40) (hdvd : leafPages k ∣ p) :
    leafEntry k (p * X86_PTE_SIZE_4K) f &&& X86_PTE_ADDR_MASK &&& (2^64 - leafBytes k) =
      p * X86_PTE_SIZE_4K := by
  have h4k : X86_PTE_SIZE_4K = 2^12 := by decide
  have hmask : p * X86_PTE_SIZE_4K &&& X86_PTE_ADDR_MASK = p * X86_PTE_SIZE_4K := by
    rw [show X86_PTE_ADDR_MASK = 2^52 - 2^12 by decide, h4k]
    exact land_two_pow_sub_of_dvd (by decide) (by omega) (Nat.dvd_mul_left _ _)
  have hhigh : p * X86_PTE_SIZE_4K &&& (2^64 - leafBytes k) = p * X86_PTE_SIZE_4K := by
    have hbytes : leafBytes k ∣ p * X86_PTE_SIZE_4K := by
      rw [leafBytes_eq hk]
      exact Nat.mul_dvd_mul_right hdvd _
    exact land_two_pow_sub_of_dvd (by omega) (by rw [h4k]; omega) hbytes
  have hflags : (f ||| if k = 3 then 0 else X86_PTE_PS) &&& X86_PTE_ADDR_MASK = 0 := by
    rw [Nat.and_or_distrib_right, hf.addr, Nat.zero_or]
    split_ifs <;> decide
  rw [leafEntry, hmask, hhigh, Nat.and_or_distrib_right, hflags, Nat.or_zero, hmask, hhigh]

/-- Where a leaf leads: its address, and the offset in it. -/
theorem leafPhys_eq {a e va : ℕ} (ha : e &&& X86_PTE_ADDR_MASK &&& (2^64 - leafBytes k) = a)
    (hdvd : leafBytes k ∣ a) : leafPhys va e (leafBytes k) = a + va % leafBytes k := by
  obtain ⟨q, rfl⟩ := hdvd
  rw [leafPhys, ha, leafBytes, Nat.and_two_pow_sub_one_eq_mod]
  exact (Nat.two_pow_add_eq_or_of_lt (Nat.mod_lt _ (Nat.two_pow_pos _)) q).symm

/-! ## The leaf of a page -/

/-- The leaf of the page `m`, which was to be mapped to the page `p` with the flags `f`. -/
structure Leaf (env : BuildEnv) (m p f : ℕ) (x : ℕ × ℕ) : Prop where
  level : 1 ≤ x.2 ∧ x.2 ≤ 3
  phys : p < 2^40 → ∀ o < X86_PTE_SIZE_4K,
    leafPhys (m * X86_PTE_SIZE_4K + o) x.1 (leafBytes x.2) = p * X86_PTE_SIZE_4K + o
  flag : ∀ g, X86_PTE_ADDR_MASK &&& g = 0 → X86_PTE_PS &&& g = 0 → x.1 &&& g = f &&& g
  /-- A large leaf starts at or above 2 MiB. -/
  large : x.2 ≠ 3 → 512 ≤ p / leafPages x.2 * leafPages x.2
  huge : x.2 = 1 → env.has1GPages = true

/-- A leaf that starts at the page `n` and at the physical page `p` is the leaf of each page in
it. -/
theorem leaf_of_entry (hf : LeafFlags f) (hk1 : 1 ≤ k) (hk3 : k ≤ 3) (hn : leafPages k ∣ n)
    (hp : leafPages k ∣ p) (hlarge : k ≠ 3 → 512 ≤ p) (hhuge : k = 1 → env.has1GPages = true)
    (hi : i < leafPages k) :
    Leaf env (n + i) (p + i) f (leafEntry k (p * X86_PTE_SIZE_4K) f, k) := by
  have hpos : 0 < leafPages k := Nat.two_pow_pos _
  refine ⟨⟨hk1, hk3⟩, ?_, fun g hg hps => leafEntry_land hg hps _, fun hk => ?_, hhuge⟩
  · intro hlt o ho
    have haddr := leafEntry_addr hf hk3 (by omega) hp
    have hbytes := leafBytes_eq hk3
    rw [leafPhys_eq haddr (by rw [hbytes]; exact Nat.mul_dvd_mul_right hp _)]
    -- The offset in the leaf is that of the page, and the one in the page.
    have hoff : ((n + i) * X86_PTE_SIZE_4K + o) % leafBytes k = i * X86_PTE_SIZE_4K + o := by
      obtain ⟨q, rfl⟩ := hn
      have hsplit : (leafPages k * q + i) * X86_PTE_SIZE_4K + o =
          (i * X86_PTE_SIZE_4K + o) + leafBytes k * q := by
        rw [hbytes]
        ring
      rw [hsplit, Nat.add_mul_mod_self_left, Nat.mod_eq_of_lt]
      calc i * X86_PTE_SIZE_4K + o < i * X86_PTE_SIZE_4K + X86_PTE_SIZE_4K := by omega
        _ = (i + 1) * X86_PTE_SIZE_4K := by ring
        _ ≤ leafPages k * X86_PTE_SIZE_4K := Nat.mul_le_mul_right _ hi
        _ = leafBytes k := hbytes.symm
    rw [hoff]
    ring
  · obtain ⟨q, rfl⟩ := hp
    have hdiv : (leafPages k * q + i) / leafPages k = q := by
      rw [Nat.mul_add_div hpos, Nat.div_eq_of_lt hi, Nat.add_zero]
    rw [hdiv, Nat.mul_comm]
    exact hlarge hk

/-! ## Sets of pages -/

/-- Each page `m` that was to be mapped to a page `p` with flags `f` got its leaf, and no other leaf
changed. -/
structure Mapped (env : BuildEnv) (W : ℕ → ℕ → ℕ → Prop) (s s' : Paging) : Prop where
  same : s' = { s with mem := s'.mem }
  inv : BuildInv s'
  new : ∀ m p f, W m p f → ∃ x, s'.pageLeaf m = some x ∧ Leaf env m p f x
  old : ∀ m, BuiltPage m → (∀ p f, ¬ W m p f) → s'.pageLeaf m = s.pageLeaf m

/-- The panics of a table that cannot be allocated. -/
def MemoryPanic (alloc : TableAnswers) : BuildPanic → Prop
  | .pml4Memory st | .slotMemory _ st | .pdptMemory _ st | .pdMemory _ st | .ptMemory _ st =>
    NoTable alloc st
  | _ => False

theorem Mapped.empty (v : BuildInv s) (hW : ∀ m p f, ¬ W m p f) : Mapped env W s s :=
  ⟨rfl, v, fun m p f h => absurd h (hW m p f), fun _ _ _ => rfl⟩

theorem Mapped.congr (h : Mapped env W s s') (hW : ∀ m p f, W m p f ↔ W' m p f) :
    Mapped env W' s s' :=
  (funext fun m => funext fun p => funext fun f => propext (hW m p f) : W = W') ▸ h

theorem Mapped.trans (h : Mapped env W s s') (h' : Mapped env W' s' s'')
    (hW : ∀ m p f, W m p f → BuiltPage m ∧ ∀ p' f', ¬ W' m p' f') :
    Mapped env (fun m p f => W m p f ∨ W' m p f) s s'' := by
  refine ⟨by rw [h'.same, h.same], h'.inv, fun m p f hm => ?_, fun m hm hno => ?_⟩
  · rcases hm with hm | hm
    · obtain ⟨x, hx, hleaf⟩ := h.new m p f hm
      obtain ⟨hb, hnot⟩ := hW m p f hm
      exact ⟨x, (h'.old m hb hnot).trans hx, hleaf⟩
    · exact h'.new m p f hm
  · rw [h'.old m hm fun p f h => hno p f (.inr h), h.old m hm fun p f h => hno p f (.inl h)]

/-- A loop over sets that are apart and have no leaf yet, each of whose rounds maps one of them. -/
theorem Mapped.loop {α : Type} {E : BuildPanic → Prop} {W : α → ℕ → ℕ → ℕ → Prop} {l : List α}
    {step : Paging → α → Except BuildPanic Paging} (v : BuildInv s)
    (hnew : ∀ r ∈ l, ∀ m p f, W r m p f → BuiltPage m ∧ s.pageLeaf m = none)
    (hapart : l.Pairwise fun r r' => ∀ m p f p' f', W r m p f → ¬ W r' m p' f')
    (hstep : ∀ r ∈ l, ∀ s, BuildInv s → (∀ m p f, W r m p f → s.pageLeaf m = none) →
      Outcome E (Mapped env (W r) s) (step s r)) :
    Outcome E (Mapped env (fun m p f => ∃ r ∈ l, W r m p f) s) (l.foldlM step s) := by
  refine foldlM_outcome (P := fun seen s' => Mapped env (fun m p f => ∃ r ∈ seen, W r m p f) s s')
    (.empty v fun m p f ⟨r, hr, _⟩ => List.not_mem_nil hr) ?_
  intro seen r rest s' hl h
  have hr : r ∈ l := by simp [hl]
  have hno : ∀ r' ∈ seen, ∀ m p f p' f', W r' m p f → ¬ W r m p' f' := by
    rw [hl, List.pairwise_append] at hapart
    exact fun r' hr' => hapart.2.2 r' hr' r List.mem_cons_self
  refine (hstep r hr s' h.inv fun m p f hm => ?_).mono fun s'' h' => ?_
  · obtain ⟨hb, hnone⟩ := hnew r hr m p f hm
    refine (h.old m hb ?_).trans hnone
    rintro p' f' ⟨r', hr', hm'⟩
    exact hno r' hr' m p' f' p f hm' hm
  · refine (h.trans h' ?_).congr fun m p f => ?_
    · rintro m p f ⟨r', hr', hm⟩
      exact ⟨(hnew r' (by simp [hl, hr']) m p f hm).1, fun p' f' => hno r' hr' m p f p' f' hm⟩
    · simp only [List.mem_append, List.mem_singleton, or_and_right, exists_or, exists_eq_left]

/-! ## Ranges -/

/-- The pages of a range, and what they are to be mapped to. -/
def RangeTo (n p c f m q g : ℕ) : Prop := ∃ i < c, m = n + i ∧ q = p + i ∧ g = f

/-- The pages of a range are below slots that the build fills, and none has a leaf. -/
def RangeFree (n c : ℕ) (s : Paging) : Prop :=
  ∀ i < c, BuiltPage (n + i) ∧ s.pageLeaf (n + i) = none

section

variable (hfree : RangeFree n (c + c') s) (h : Mapped env (RangeTo n p c f) s s')

include hfree h

theorem Mapped.trans_range (h' : Mapped env (RangeTo (n + c) (p + c) c' f) s' s'') :
    Mapped env (RangeTo n p (c + c') f) s s'' := by
  refine (h.trans h' ?_).congr fun m q g => ⟨?_, ?_⟩
  · rintro _ _ _ ⟨i, hi, rfl, -, -⟩
    refine ⟨(hfree i (by omega)).1, ?_⟩
    rintro _ _ ⟨j, -, heq, -⟩
    omega
  · rintro (⟨i, hi, rfl, rfl, rfl⟩ | ⟨i, hi, rfl, rfl, rfl⟩)
    · exact ⟨i, by omega, rfl, rfl, rfl⟩
    · exact ⟨c + i, by omega, by omega, by omega, rfl⟩
  · rintro ⟨i, hi, rfl, rfl, rfl⟩
    by_cases hlt : i < c
    · exact .inl ⟨i, hlt, rfl, rfl, rfl⟩
    · exact .inr ⟨i - c, by omega, by omega, by omega, rfl⟩

/-- What is left of a free range is free after its start is mapped. -/
theorem Mapped.free_range : RangeFree (n + c) c' s' := by
  intro i hi
  obtain ⟨hb, hnone⟩ := hfree (c + i) (by omega)
  rw [Nat.add_assoc]
  refine ⟨hb, (h.old _ hb ?_).trans hnone⟩
  rintro _ _ ⟨j, hj, heq, -⟩
  omega

end

/-- Tables extended twice. -/
theorem Extends.trans (h : Extends k n s s') (h' : Extends (k + 1) n s' s'') :
    Extends (k + 1) n s s'' :=
  ⟨by rw [h'.same, h.same], h'.tree, h'.full, fun m hm => (h'.leaf m hm).trans (h.leaf m hm)⟩

/-- An address is a multiple of a leaf's size when its page is one of the leaf's pages. -/
theorem land_leafBytes_eq_zero (hk : k ≤ 3) :
    n * X86_PTE_SIZE_4K &&& (leafBytes k - 1) = 0 ↔ leafPages k ∣ n := by
  have h4k : 0 < X86_PTE_SIZE_4K := by decide
  have hbytes := leafBytes_eq hk
  rw [leafBytes] at hbytes ⊢
  rw [Nat.and_two_pow_sub_one_eq_mod, ← Nat.dvd_iff_mod_eq_zero, hbytes,
    Nat.mul_dvd_mul_iff_right h4k]

/-- What a round has mapped: a leaf of one of the three sizes, which the range has room for. -/
def RoundMapped (env : BuildEnv) (n p c f : ℕ) (s : Paging) (r : ℕ × Paging) : Prop :=
  ∃ k, k ≤ 3 ∧ r.1 = leafPages k * X86_PTE_SIZE_4K ∧ leafPages k ≤ c ∧
    Mapped env (RangeTo n p (leafPages k) f) s r.2

section

variable (hf : LeafFlags f) (hfree : RangeFree n c s)

include hf hfree

/-- The end of a round, for each of the three sizes: the slot is free, so there is no conflict, and
the leaf maps the start of the range. -/
theorem Extends.round (env : BuildEnv) (alloc : TableAnswers) (p : ℕ)
    (hext : Extends k n s s') (hk1 : 1 ≤ k) (hk3 : k ≤ 3) (hn : leafPages k ∣ n)
    (hp : leafPages k ∣ p) (hc : leafPages k ≤ c)
    (hlarge : k ≠ 3 → 512 ≤ p) (hhuge : k = 1 → env.has1GPages = true)
    (ht : s'.walk (path k n) = some t) (conflict : BuildPanic) :
    Outcome (MemoryPanic alloc) (RoundMapped env n p c f s)
      (if s'.mem t (slot k n) &&& X86_PTE_P ≠ 0 then .error conflict
        else .ok (leafBytes k, s'.write t (slot k n) (leafEntry k (p * X86_PTE_SIZE_4K) f))) := by
  have hpos : 0 < leafPages k := Nat.two_pow_pos _
  have hb : BuiltPage n := (hfree 0 (by omega)).1
  have hin : ∀ m, m / leafPages k = n / leafPages k ↔ ∃ i < leafPages k, m = n + i := by
    obtain ⟨q, rfl⟩ := hn
    intro m
    rw [Nat.mul_div_cancel_left q hpos, Nat.div_eq_iff hpos, Nat.mul_comm q]
    exact ⟨fun h => ⟨m - leafPages k * q, by omega, by omega⟩, fun ⟨i, hi, h⟩ => by omega⟩
  have habsent : s'.mem t (slot k n) &&& X86_PTE_P = 0 := by
    refine absent_of_pageLeaf_eq_none hext.tree hb ht hext.full hk1 hk3 fun m hm hsame => ?_
    obtain ⟨i, hi, rfl⟩ := (hin m).1 hsame
    rw [hext.leaf _ hm]
    exact (hfree i (by omega)).2
  have hpresent : leafEntry k (p * X86_PTE_SIZE_4K) f &&& X86_PTE_P ≠ 0 := by
    rw [leafEntry_land (by decide) (by decide)]
    exact hf.present
  have hps : k = 3 ∨ leafEntry k (p * X86_PTE_SIZE_4K) f &&& X86_PTE_PS ≠ 0 :=
    (eq_or_ne k 3).imp_right fun h => leafEntry_large h _
  obtain ⟨hinv, hleaf⟩ := hext.tree.write hb ht hext.full hk1 hk3 habsent hpresent hps
  rw [if_neg (not_not.2 habsent)]
  refine ⟨k, hk3, leafBytes_eq hk3, hc, ?_, hinv, ?_, fun m hm hne => ?_⟩
  · rw [hext.same]
    rfl
  · rintro _ _ _ ⟨i, hi, rfl, rfl, rfl⟩
    refine ⟨_, ?_, leaf_of_entry hf hk1 hk3 hn hp hlarge hhuge hi⟩
    rw [hleaf _ (hfree i (by omega)).1, if_pos ((hin _).2 ⟨i, hi, rfl⟩)]
  · rw [hleaf m hm, if_neg, hext.leaf m hm]
    intro hsame
    obtain ⟨i, hi, rfl⟩ := (hin m).1 hsame
    exact hne _ _ ⟨i, hi, rfl, rfl, rfl⟩

variable (ha : FreshTables alloc) (v : BuildInv s)

include ha v

/-- One round of the loop of `buildMapRange`. -/
theorem buildMapStep_spec (hc : 0 < c) :
    Outcome (MemoryPanic alloc) (RoundMapped env n p c f s)
      (buildMapStep env alloc f large (n * X86_PTE_SIZE_4K) (p * X86_PTE_SIZE_4K)
        (c * X86_PTE_SIZE_4K) s) := by
  obtain ⟨hb, hnone⟩ := hfree 0 hc
  rw [Nat.add_zero] at hb
  set va := n * X86_PTE_SIZE_4K
  have hslots : pml4Index va = slot 0 n ∧ pdptIndex va = slot 1 n ∧ pdIndex va = slot 2 n ∧
      ptIndex va = slot 3 n := index_eq n
  have h2m : X86_PTE_SIZE_2M = leafBytes 2 := by decide
  have h1g : X86_PTE_SIZE_1G = leafBytes 1 := by decide
  have hroom : ∀ k ≤ 3, c * X86_PTE_SIZE_4K ≥ leafBytes k → leafPages k ≤ c := fun k hk h => by
    rw [leafBytes_eq hk] at h
    exact Nat.le_of_mul_le_mul_right h (by decide)
  have hmin : p * X86_PTE_SIZE_4K ≥ leafBytes 2 → 512 ≤ p := fun h => by
    rw [leafBytes_eq (by decide)] at h
    exact Nat.le_of_mul_le_mul_right h (by decide)
  rw [buildMapStep, hslots.1, hslots.2.1, hslots.2.2.1, hslots.2.2.2, h1g, h2m]
  obtain ⟨st, hget, hno⟩ | ⟨pdpt, s1, hget, hw1, hext1⟩ :=
    getOrAllocTable_extends v.toBuildTree hb rfl (v.fullOff 0 n) ha (by decide) hnone
  · rw [hget]
    exact hno
  simp only [hget]
  split
  next hlarge =>
    obtain ⟨-, hhuge, hva, hpa, hsize, hlow⟩ := hlarge
    have hentry := hext1.round hf hfree env alloc p le_rfl (by decide)
      ((land_leafBytes_eq_zero (by decide)).1 hva) ((land_leafBytes_eq_zero (by decide)).1 hpa)
      (hroom 1 (by decide) hsize) (fun _ => hmin hlow) (fun _ => hhuge) hw1
      (.pdptConflict va)
    simpa only [leafEntry, if_neg (show ¬ 1 = 3 by decide), Nat.lor_assoc] using hentry
  next hsmall =>
    obtain ⟨st, hget, hno⟩ | ⟨pd, s2, hget, hw2, hext2⟩ :=
      getOrAllocTable_extends hext1.tree hb hw1 hext1.full ha (by decide)
        ((hext1.leaf n hb).trans hnone)
    · rw [hget]
      exact hno
    simp only [hget]
    have hext := hext1.trans hext2
    split
    next hlarge =>
      obtain ⟨-, hva, hpa, hsize, hlow⟩ := hlarge
      have hentry := hext.round hf hfree env alloc p (by decide) (by decide)
        ((land_leafBytes_eq_zero (by decide)).1 hva) ((land_leafBytes_eq_zero (by decide)).1 hpa)
        (hroom 2 (by decide) hsize) (fun _ => hmin hlow) (fun h => nomatch h) hw2
        (.pdConflict va)
      simpa only [leafEntry, if_neg (show ¬ 2 = 3 by decide), Nat.lor_assoc] using hentry
    next hsmall =>
      obtain ⟨st, hget, hno⟩ | ⟨pt, s3, hget, hw3, hext3⟩ :=
        getOrAllocTable_extends hext.tree hb hw2 hext.full ha (by decide)
          ((hext.leaf n hb).trans hnone)
      · rw [hget]
        exact hno
      simp only [hget]
      have hentry := (hext.trans hext3).round hf hfree env alloc p (by decide) le_rfl
        (one_dvd n) (one_dvd p) hc (fun h => absurd rfl h) (fun h => nomatch h) hw3
        (.ptConflict va)
      have hmask : p * X86_PTE_SIZE_4K &&& X86_PTE_ADDR_MASK &&& (2^64 - leafBytes 3) =
          p * X86_PTE_SIZE_4K &&& X86_PTE_ADDR_MASK := by
        rw [Nat.land_assoc]
        rfl
      simp only [leafEntry, if_pos, Nat.or_zero, hmask] at hentry
      exact hentry

/-! ## The loop -/

/-- The loop of `buildMapRange`, by induction on the rounds that are left: they are enough when
there is one for each page. -/
theorem buildMapLoop_spec {fuel : ℕ} (hfuel : c ≤ fuel) :
    Outcome (MemoryPanic alloc) (Mapped env (RangeTo n p c f) s)
      (buildMapLoop env alloc f large fuel (n * X86_PTE_SIZE_4K) (p * X86_PTE_SIZE_4K)
        (c * X86_PTE_SIZE_4K) s) := by
  have hnone : ∀ n p m q g, ¬ RangeTo n p 0 f m q g :=
    fun n p m q g ⟨_, h, _⟩ => Nat.not_lt_zero _ h
  induction fuel generalizing n p c s with
  | zero =>
    obtain rfl : c = 0 := by omega
    exact Mapped.empty v (hnone n p)
  | succ fuel ih =>
    rw [buildMapLoop]
    rcases Nat.eq_zero_or_pos c with rfl | hc
    · exact Mapped.empty v (hnone n p)
    · rw [if_neg (Nat.mul_ne_zero (by omega) (by decide))]
      refine (buildMapStep_spec hf hfree ha v hc).bind fun ⟨mapped, s1⟩ hr => ?_
      obtain ⟨k, hk, rfl, hroom, hmapped⟩ := hr
      have hpos : 0 < leafPages k := Nat.two_pow_pos _
      obtain ⟨c', rfl⟩ := Nat.exists_eq_add_of_le hroom
      have hrest := ih (p := p + leafPages k) (hmapped.free_range hfree) hmapped.inv (by omega)
      dsimp only
      rw [← Nat.add_mul, ← Nat.add_mul, ← Nat.sub_mul, Nat.add_sub_cancel_left]
      exact hrest.mono fun s'' h => hmapped.trans_range hfree h

/-- `buildMapRange` over pages without a leaf maps them all, and nothing else. -/
theorem buildMapRange_spec :
    Outcome (MemoryPanic alloc) (Mapped env (RangeTo n p c f) s)
      (buildMapRange env alloc (n * X86_PTE_SIZE_4K) (p * X86_PTE_SIZE_4K) (c * X86_PTE_SIZE_4K) f
        large s) := by
  have hone : ∀ x, x * X86_PTE_SIZE_4K &&& (X86_PTE_SIZE_4K - 1) = 0 := fun x =>
    (land_leafBytes_eq_zero le_rfl).2 (one_dvd x)
  have haligned : (n * X86_PTE_SIZE_4K ||| p * X86_PTE_SIZE_4K ||| c * X86_PTE_SIZE_4K) &&&
      (X86_PTE_SIZE_4K - 1) = 0 := by
    rw [Nat.and_or_distrib_right, Nat.and_or_distrib_right, hone, hone, hone]
    rfl
  rw [buildMapRange, if_neg (not_not.2 haligned), Nat.mul_div_cancel c (by decide)]
  exact buildMapLoop_spec hf hfree ha v le_rfl

end

end Bongos.Arch
