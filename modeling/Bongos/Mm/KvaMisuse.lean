import Bongos.Mm.KvaPartition

/-!
# Frees of anything

`kvaFree` is called with what the caller passes, which need not be a reservation. No write comes
before an error (`kvaFree_error`).

The bounds are checked on 64-bit sums. One size wraps past the check: `va + size + 4096` is `va`
again for the largest multiple of a page, and the guard page before `va` is then freed.
-/

namespace Bongos.Mm

open FallibleState List

/-! ## What is free -/

/-- The address is in one of the extents. -/
def Covered (free : List KvaExtent) (x : ℕ) : Prop := ∃ e ∈ free, e.start ≤ x ∧ x < e.end

variable {st st' : KvaState} {va size s t x : ℕ} {left right free : List KvaExtent} {e : KvaExtent}

theorem covered_append : Covered (left ++ right) x ↔ Covered left x ∨ Covered right x := by
  simp only [Covered, mem_append, or_and_right, exists_or]

theorem covered_cons : Covered (e :: right) x ↔ (e.start ≤ x ∧ x < e.end) ∨ Covered right x := by
  simp only [Covered, mem_cons, or_and_right, exists_or, exists_eq_left]

theorem not_covered_nil : ¬ Covered [] x := by
  rintro ⟨e, he, -⟩
  cases he

section

variable (h : ExtentJoin s t left right free)

include h

/-- The range of a join is what it adds to the extents. -/
theorem ExtentJoin.covered (hst : s < t) (hne : ∀ e ∈ left ++ right, e.start < e.end) :
    Covered free x ↔ Covered (left ++ right) x ∨ s ≤ x ∧ x < t := by
  cases h with
  | both he hf =>
    simp only [covered_append, covered_cons, not_covered_nil]
    grind
  | left he hf =>
    simp only [covered_append, covered_cons, not_covered_nil]
    grind
  | right he hf =>
    simp only [covered_append, covered_cons]
    grind
  | between he hf =>
    simp only [covered_append, covered_cons, or_assoc]
    exact or_congr_right or_comm

/-- The bounds of the extents after a join. -/
theorem ExtentJoin.bounds (hst : s < t) {a b : ℕ} (hne : ∀ e ∈ left ++ right, e.start < e.end)
    (hin : ∀ e ∈ left ++ right, a ≤ e.start ∧ e.end ≤ b) (hs : a ≤ s) (ht : t ≤ b) :
    ∀ e ∈ free, e.start < e.end ∧ a ≤ e.start ∧ e.end ≤ b := by
  intro x hx
  rcases h.mem hx with hx | ⟨hstart, hend⟩
  · exact ⟨hne x hx, hin x hx⟩
  have hlow : a ≤ x.start ∧ x.start ≤ s := by
    rcases hstart with hstart | ⟨e, he, hjoin, hstart⟩
    · omega
    · have := hne e he
      have := hin e he
      omega
  have hhigh : t ≤ x.end ∧ x.end ≤ b := by
    rcases hend with hend | ⟨e, he, hjoin, hend⟩
    · omega
    · have := hne e he
      have := hin e he
      omega
  omega

end

/-- A free keeps the table in order and adds the range to what is free. -/
theorem KvaTable.freed (h : KvaTable st) (hfreed : FreedRange st st' s t) :
    KvaTable st' ∧ ∀ x, Covered st'.free x ↔ Covered st.free x ∨ s ≤ x ∧ x < t := by
  obtain ⟨left, right, hfree, hl, hq, hjoin⟩ := hfreed.join
  have hne : ∀ e ∈ left ++ right, e.start < e.end := hfree ▸ h.nonempty
  have hbounds := hjoin.bounds hfreed.lt hne (hfree ▸ h.inside) hfreed.inside.1 hfreed.inside.2
  refine ⟨⟨hjoin.separated (hfree ▸ h.separated) hne hl hq, fun e he => (hbounds e he).1,
    fun e he => hfreed.base_eq ▸ hfreed.end_eq ▸ (hbounds e he).2, hfreed.end_eq ▸ h.end_lt⟩,
      fun x => ?_⟩
  rw [hjoin.covered hfreed.lt hne, hfree]

/-! ## Calls with any arguments -/

/-- An allocation keeps the table in order. -/
theorem KvaTable.of_kvaAlloc (h : KvaTable st)
    (hok : kvaAlloc st size = .ok (va, st')) : KvaTable st' := by
  obtain ⟨-, -, hfits, -, -, hbase, hend, left, e, right, hfree, hroom, -, hfree'⟩ :=
    kvaAlloc_ok hok rfl
  have hin : ∀ x ∈ left ++ e :: right, x.start < x.end ∧ st.base ≤ x.start ∧ x.end ≤ st.end :=
    fun x hx => ⟨h.nonempty x (hfree ▸ hx), h.inside x (hfree ▸ hx)⟩
  have he := hin e (by simp)
  have hrest : ∀ x ∈ left ++ right, x.start < x.end ∧ st.base ≤ x.start ∧ x.end ≤ st.end :=
    fun x hx => hin x (perm_middle.mem_iff.2 (mem_cons_of_mem _ hx))
  have hsep := h.separated
  rw [hfree] at hsep
  obtain ⟨hsep, hl, hq⟩ := separated_middle.1 hsep
  have hnew : Separated (st'.free.map KvaExtent.piece) ∧
      ∀ x ∈ st'.free, x.start < x.end ∧ st.base ≤ x.start ∧ x.end ≤ st.end := by
    rcases hfree' with ⟨-, hfree'⟩ | ⟨hwhole, hfree'⟩ <;> rw [hfree']
    · exact ⟨hsep, hrest⟩
    · refine ⟨separated_middle.2 ⟨hsep, fun l hl' => ?_, hq⟩, fun x hx => ?_⟩
      · have := hl l hl'
        dsimp only
        omega
      · rcases mem_cons.1 (perm_middle.mem_iff.1 hx) with rfl | hx
        · dsimp only
          omega
        · exact hrest x hx
  exact ⟨hnew.1, fun x hx => (hnew.2 x hx).1, fun x hx => hbase ▸ hend ▸ (hnew.2 x hx).2,
    hend ▸ h.end_lt⟩

/-- A call with any arguments. One that fails leaves the state as it was. -/
inductive KvaCall : KvaState → KvaState → Prop
  | alloc {st st' : KvaState} {size : BitVec 64} {va : ℕ}
      (h : kvaAlloc st size.toNat = .ok (va, st')) : KvaCall st st'
  | free {st : KvaState} (va size : BitVec 64) :
      KvaCall st (exec (kvaFree va.toNat size.toNat) st).2

theorem KvaTable.call (h : KvaTable st) (hcall : KvaCall st st') : KvaTable st' := by
  cases hcall with
  | alloc hok => exact h.of_kvaAlloc hok
  | free va size =>
    rcases hfree : exec (kvaFree va.toNat size.toNat) st with ⟨_ | _, st'⟩
    · rw [kvaFree_error hfree]
      exact h
    · exact (h.freed (h.of_kvaFree hfree).2.2.2.2).1

/-- The states of an area that was set up as `[base, end)`, whatever was called since. -/
def KvaReachable (st : KvaState) : Prop :=
  ∃ (st₀ : KvaState) (base «end» : ℕ), base < «end» ∧ «end» < 2^64 ∧
    Run KvaCall (kvaStateInit st₀ base «end») st

theorem KvaReachable.table (h : KvaReachable st) : KvaTable st := by
  obtain ⟨st0, base, «end», hlt, h64, hrun⟩ := h
  refine hrun.invariant ?_ fun h hcall => h.call hcall
  exact (KvaInv.init st0 hlt h64).table

/-! ## Exactness -/

/-- What is asked of a free: in whole numbers, it frees exactly the pages and their guard pages,
which were in the area and not free; or it fails and changes nothing. -/
def KvaFreeExact (st : KvaState) (va size : ℕ) : Prop :=
  match exec (kvaFree va size) st with
  | (.ok (), st') =>
    (st.base : ℤ) ≤ (va : ℤ) - 4096 ∧ (va : ℤ) + size + 4096 ≤ st.end ∧
      (∀ e ∈ st.free, (e.end : ℤ) ≤ (va : ℤ) - 4096 ∨ (va : ℤ) + size + 4096 ≤ e.start) ∧
      ∀ x : ℕ, Covered st'.free x ↔
        Covered st.free x ∨ (va : ℤ) - 4096 ≤ x ∧ (x : ℤ) < (va : ℤ) + size + 4096
  | (.error _, st') => st' = st

/-- The end of the range wraps onto `va`, and the page before `va` passes for the whole range. -/
def WrapsOntoGuard (st : KvaState) (va size : ℕ) : Prop :=
  size = 2^64 - 4096 ∧ st.base + 4096 ≤ va ∧ va ≤ st.end ∧
    (∀ e ∈ st.free, e.end ≤ va - 4096 ∨ va ≤ e.start) ∧ HasRoom st (va - 4096) va

/-- **A free is exact unless its size wraps.** In every state that calls with any arguments
reach. -/
theorem kvaFree_exact_iff (h : KvaReachable st) (va size : BitVec 64) :
    KvaFreeExact st va.toNat size.toNat ↔ ¬ WrapsOntoGuard st va.toNat size.toNat := by
  have htable := h.table
  unfold KvaFreeExact
  constructor
  · -- The wrapped range passes the checks, and the true one ends outside the area.
    rintro hexact ⟨hwrap, hbase, hend, hapart, hroom⟩
    have hsum : (va.toNat + size.toNat + 4096) % 2^64 = va.toNat := by omega
    obtain ⟨st', hok⟩ : ∃ st', exec (kvaFree va.toNat size.toNat) st = (.ok ⟨⟩, st') :=
      htable.exists_kvaFree (by omega) (by omega) (by omega) (by omega) (by omega)
        (by rw [hsum]; exact hapart) (by rw [hsum]; exact hroom)
    rw [hok] at hexact
    have hlt := htable.end_lt
    omega
  · intro hno
    split
    next st' hok =>
      obtain ⟨hpos, hpage, hguard, hge, hfreed⟩ := htable.of_kvaFree hok
      -- The sum that the bounds are checked on is the true end, or wraps onto `va`.
      obtain htrue | ⟨hwrap, hsum⟩ :
        (va.toNat + size.toNat + 4096) % 2^64 = va.toNat + size.toNat + 4096 ∨
        size.toNat = 2^64 - 4096 ∧ (va.toNat + size.toNat + 4096) % 2^64 = va.toNat := by omega
      · have hin := hfreed.inside
        refine ⟨by omega, by omega, fun e he => ?_, fun x => ?_⟩
        · have := hfreed.apart e he
          omega
        · rw [(htable.freed hfreed).2 x]
          refine or_congr_right ?_
          omega
      · rw [hsum] at hfreed
        have hin := hfreed.inside
        exact absurd ⟨hwrap, by omega, hin.2, hfreed.apart, hfreed.room⟩ hno
    next e st' herror => exact kvaFree_error herror

/-- An area of sixteen pages with one page reserved: `[0x10000, 0x13000)` is taken. -/
def onePageReserved : KvaState where
  base := 0x10000
  «end» := 0x20000
  extents := Function.update (Function.update (fun _ => ⟨0, 0⟩) 0 ⟨0x10000, 0x20000⟩) 0
    ⟨0x13000, 0x20000⟩
  count := 1
  liveCount := 1

theorem onePageReserved_reachable : KvaReachable onePageReserved := by
  refine ⟨⟨0, 0, fun _ => ⟨0, 0⟩, 0, 0⟩, 0x10000, 0x20000, by decide, by decide, ?_⟩
  refine Relation.ReflTransGen.single (@KvaCall.alloc _ _ 0x1000 0x11000 ?_)
  simp [kvaAlloc, kvaStateInit, onePageReserved, KVA_PAGE_SIZE, KVA_GUARD_SIZE, KVA_MAX_EXTENTS,
    range_succ]

/-- The page that was reserved is freed exactly, with its guard pages. -/
theorem kvaFree_exact_onePage : KvaFreeExact onePageReserved (0x11000 : BitVec 64).toNat
    (0x1000 : BitVec 64).toNat := by
  have hsize : (0x1000 : BitVec 64).toNat ≠ 2^64 - 4096 := by decide
  rw [kvaFree_exact_iff onePageReserved_reachable]
  rintro ⟨hwrap, -⟩
  exact hsize hwrap

/-- The largest multiple of a page is taken for the size of the guard page before `va`: the call
succeeds and makes this page of a reservation free, though the range is far larger than the area. -/
theorem kvaFree_wraps : KvaReachable onePageReserved ∧
    (exec (kvaFree 0x11000 (2^64 - 4096)) onePageReserved).1 = .ok () ∧
    ¬ KvaFreeExact onePageReserved 0x11000 (2^64 - 4096) := by
  have hok : (exec (kvaFree 0x11000 (2^64 - 4096)) onePageReserved).1 = .ok () := by decide +kernel
  refine ⟨onePageReserved_reachable, hok, fun h => ?_⟩
  unfold KvaFreeExact at h
  split at h
  next st' hrun =>
    have hend : (onePageReserved.end : ℤ) = 0x20000 := rfl
    omega
  next e st' hrun =>
    rw [hrun] at hok
    cases hok

end Bongos.Mm
