import Mathlib.Data.Set.Function
import Mathlib.Order.Interval.Set.Defs

/-!
# Binary heaps in an array

A binary heap is a function `v` on the positions below `n`, ordered by a key: no element is smaller
than its parent. A sift moves one element along a branch. While it is at position `i`, the order may
fail only above it (`NearUp`) or only below it (`NearDown`), and each move is a swap with its parent
or with its smallest child. An implementation that keeps a hole instead of swapping is read as the
array in which the hole is filled with the element that is being moved.
-/

namespace Bongos.IndexedHeap

open Set (BijOn Iio mem_Iio)

variable {α κ : Type*} [LinearOrder κ] {key key' : α → κ} {v v' : ℕ → α} {n i p c : ℕ}

/-- The position above `i`. -/
def parent (i : ℕ) : ℕ := (i - 1) / 2

theorem parent_lt (hi : 0 < i) : parent i < i := by
  unfold parent
  omega

/-- No element is smaller than its parent. -/
def Ordered (key : α → κ) (v : ℕ → α) (n : ℕ) : Prop :=
  ∀ j, 0 < j → j < n → key (v (parent j)) ≤ key (v j)

/-- What is below `i` is not smaller than what is above it. -/
def Bridged (key : α → κ) (v : ℕ → α) (n i : ℕ) : Prop :=
  0 < i → ∀ j, 0 < j → j < n → parent j = i → key (v (parent i)) ≤ key (v j)

/-- The order may fail only between `i` and its parent. -/
structure NearUp (key : α → κ) (v : ℕ → α) (n i : ℕ) : Prop where
  rest : ∀ j, 0 < j → j < n → j ≠ i → key (v (parent j)) ≤ key (v j)
  bridged : Bridged key v n i

/-- The order may fail only between `i` and its children. -/
structure NearDown (key : α → κ) (v : ℕ → α) (n i : ℕ) : Prop where
  rest : ∀ j, 0 < j → j < n → parent j ≠ i → key (v (parent j)) ≤ key (v j)
  bridged : Bridged key v n i

/-! ## The order -/

section

variable (h : Ordered key v n)

include h

theorem Ordered.mono {m : ℕ} (hm : m ≤ n) : Ordered key v m :=
  fun j hj hjm => h j hj (hjm.trans_le hm)

theorem Ordered.congr (hv : ∀ j < n, key' (v' j) = key (v j)) : Ordered key' v' n := by
  intro j hj hjn
  rw [hv j hjn, hv _ ((parent_lt hj).trans hjn)]
  exact h j hj hjn

/-- The first element is a smallest one. -/
theorem Ordered.root_le {j : ℕ} (hj : j < n) : key (v 0) ≤ key (v j) := by
  induction j using Nat.strongRecOn with
  | ind j ih =>
    rcases Nat.eq_zero_or_pos j with rfl | hpos
    · exact le_rfl
    · have hp := parent_lt hpos
      exact (ih (parent j) hp (hp.trans hj)).trans (h j hpos hj)

/-- In an ordered heap what is below `i` is not smaller than what is above it. -/
theorem Ordered.bridged (i : ℕ) : Bridged key v n i := by
  intro hi j hj hjn hji
  have hin : i < n := hji ▸ (parent_lt hj).trans hjn
  calc key (v (parent i)) ≤ key (v i) := h i hi hin
    _ = key (v (parent j)) := by rw [hji]
    _ ≤ key (v j) := h j hj hjn

end

/-- The two ends of the bridge are elsewhere than `i`. -/
theorem Bridged.congr (h : Bridged key v n i) (hv : ∀ j < n, j ≠ i → v' j = v j) :
    Bridged key v' n i := by
  intro hi j hj hjn hji
  have hij := parent_lt hj
  have hpi := parent_lt hi
  rw [hv j hjn (by omega), hv (parent i) (by omega) (by omega)]
  exact h hi j hj hjn hji

/-! ## Sifting up -/

/-- A new last element may be smaller than its parent. -/
theorem Ordered.push (h : Ordered key v n) (hv : ∀ j < n, key' (v' j) = key (v j)) :
    NearUp key' v' (n + 1) n := by
  refine ⟨fun j hj hjn hne => ?_, fun hn j hj hjn hjp => ?_⟩
  · exact h.congr hv j hj (by omega)
  · have := parent_lt hj
    omega

/-- An element smaller than the parent of its position is smaller than everything below. -/
theorem Ordered.replace_up (h : Ordered key v n) (hv : ∀ j < n, j ≠ i → v' j = v j) (hi : 0 < i)
    (hlt : key (v' i) < key (v (parent i))) : NearUp key v' n i := by
  refine ⟨fun j hj hjn hne => ?_, (h.bridged i).congr hv⟩
  rw [hv j hjn hne]
  by_cases hji : parent j = i
  · rw [hji]
    exact hlt.le.trans (h.bridged i hi j hj hjn hji)
  · rw [hv _ ((parent_lt hj).trans hjn) hji]
    exact h j hj hjn

/-- A move up. -/
theorem NearUp.swap (h : NearUp key v n i) (hi : 0 < i) (hin : i < n)
    (hlt : key (v i) < key (v (parent i))) :
    NearUp key (v ∘ Equiv.swap i (parent i)) n (parent i) := by
  have hpi := parent_lt hi
  have hi' : (v ∘ Equiv.swap i (parent i)) i = v (parent i) :=
    congrArg v (Equiv.swap_apply_left _ _)
  have hp' : (v ∘ Equiv.swap i (parent i)) (parent i) = v i :=
    congrArg v (Equiv.swap_apply_right _ _)
  have hv : ∀ j, j ≠ i → j ≠ parent i → (v ∘ Equiv.swap i (parent i)) j = v j :=
    fun j hji hjp => congrArg v (Equiv.swap_apply_of_ne_of_ne hji hjp)
  refine ⟨fun j hj hjn hjp => ?_, fun hp j hj hjn hjp => ?_⟩
  · rcases eq_or_ne j i with rfl | hji
    · rw [hi', hp']
      exact hlt.le
    · rw [hv j hji hjp]
      -- The parent of `j` is one of the two that moved, or neither of them.
      rcases eq_or_ne (parent j) i with hpj | hpj
      · rw [hpj, hi']
        exact h.bridged hi j hj hjn hpj
      · rcases eq_or_ne (parent j) (parent i) with hpp | hpp
        · rw [hpp, hp']
          exact hlt.le.trans (hpp ▸ h.rest j hj hjn hji)
        · rw [hv _ hpj hpp]
          exact h.rest j hj hjn hji
  · have hjp' := parent_lt hj
    have hpp := parent_lt hp
    have habove := h.rest (parent i) hp (by omega) hpi.ne
    rw [hv (parent (parent i)) (by omega) hpp.ne]
    rcases eq_or_ne j i with rfl | hji
    · rw [hi']
      exact habove
    · rw [hv j hji (by omega)]
      exact habove.trans (hjp ▸ h.rest j hj hjn hji)

/-- An element that is not smaller than its parent is in its place. -/
theorem NearUp.done (h : NearUp key v n i) (hi : 0 < i → key (v (parent i)) ≤ key (v i)) :
    Ordered key v n := by
  intro j hj hjn
  rcases eq_or_ne j i with rfl | hji
  · exact hi hj
  · exact h.rest j hj hjn hji

/-! ## Sifting down -/

/-- An element not smaller than the parent of its position may be larger than what is below. -/
theorem Ordered.replace_down (h : Ordered key v n) (hv : ∀ j < n, j ≠ i → v' j = v j)
    (hi : 0 < i → key (v (parent i)) ≤ key (v' i)) : NearDown key v' n i := by
  refine ⟨fun j hj hjn hne => ?_, (h.bridged i).congr hv⟩
  rw [hv _ ((parent_lt hj).trans hjn) hne]
  rcases eq_or_ne j i with rfl | hji
  · exact hi hj
  · rw [hv j hjn hji]
    exact h j hj hjn

/-- A move down, to the smallest child. -/
theorem NearDown.swap (h : NearDown key v n i) (hc : 0 < c) (hci : parent c = i)
    (hmin : ∀ j, 0 < j → j < n → parent j = i → key (v c) ≤ key (v j)) (hcn : c < n)
    (hlt : key (v c) < key (v i)) : NearDown key (v ∘ Equiv.swap i c) n c := by
  have hic : i < c := hci ▸ parent_lt hc
  have hi' : (v ∘ Equiv.swap i c) i = v c := congrArg v (Equiv.swap_apply_left _ _)
  have hc' : (v ∘ Equiv.swap i c) c = v i := congrArg v (Equiv.swap_apply_right _ _)
  have hv : ∀ j, j ≠ i → j ≠ c → (v ∘ Equiv.swap i c) j = v j :=
    fun j hji hjc => congrArg v (Equiv.swap_apply_of_ne_of_ne hji hjc)
  refine ⟨fun j hj hjn hjc => ?_, fun _ j hj hjn hjc => ?_⟩
  · have hjp := parent_lt hj
    rcases eq_or_ne j i with rfl | hji
    · rw [hi', hv _ hjp.ne (by omega)]
      exact h.bridged hj c hc hcn hci
    · rcases eq_or_ne j c with rfl | hjc'
      · rw [hci, hi', hc']
        exact hlt.le
      · rw [hv j hji hjc']
        rcases eq_or_ne (parent j) i with hpj | hpj
        · rw [hpj, hi']
          exact hmin j hj hjn hpj
        · rw [hv _ hpj hjc]
          exact h.rest j hj hjn hpj
  · have hjp := parent_lt hj
    rw [hci, hi', hv j (by omega) (by omega)]
    exact hjc ▸ h.rest j hj hjn (by omega)

/-- An element that is not larger than its children is in its place. -/
theorem NearDown.done (h : NearDown key v n i)
    (hi : ∀ j, 0 < j → j < n → parent j = i → key (v i) ≤ key (v j)) : Ordered key v n := by
  intro j hj hjn
  by_cases hji : parent j = i
  · rw [hji]
    exact hi j hj hjn hji
  · exact h.rest j hj hjn hji

/-- The children of a position. -/
theorem parent_eq_iff (hc : 0 < c) : parent c = i ↔ c = 2 * i + 1 ∨ c = 2 * i + 2 := by
  unfold parent
  omega

/-! ## The elements -/

variable {s : Set α}

/-- A swap of two positions keeps the elements. -/
theorem bijOn_swap (h : BijOn v (Iio n) s) (hi : i < n) (hp : p < n) :
    BijOn (v ∘ Equiv.swap i p) (Iio n) s := by
  have hmaps : Set.MapsTo (Equiv.swap i p) (Iio n) (Iio n) := by
    intro j hj
    rw [Equiv.swap_apply_def]
    split_ifs
    · exact hp
    · exact hi
    · exact hj
  refine h.comp ⟨hmaps, (Equiv.swap i p).injective.injOn, fun j hj => ?_⟩
  exact ⟨Equiv.swap i p j, hmaps hj, Equiv.swap_apply_self i p j⟩

theorem Iio_succ (n : ℕ) : Iio (n + 1) = insert n (Iio n) := by
  ext j
  simp only [mem_Iio, Set.mem_insert_iff]
  omega

/-- A new last element. -/
theorem bijOn_push (h : BijOn v (Iio n) s) (hv : ∀ j < n, v' j = v j)
    (hn : v' n ∉ s) : BijOn v' (Iio (n + 1)) (insert (v' n) s) := by
  rw [Iio_succ]
  exact (h.congr fun j hj => (hv j hj).symm).insert hn

/-- The last element is taken off. -/
theorem bijOn_pop (h : BijOn v (Iio (n + 1)) s) : BijOn v (Iio n) (s \ {v n}) := by
  have hset : Iio n = Iio (n + 1) \ {n} := by
    ext j
    simp only [mem_Iio, Set.mem_sdiff, Set.mem_singleton_iff]
    omega
  rw [hset]
  exact h.sdiff_singleton (mem_Iio.2 (Nat.lt_succ_self n))

end Bongos.IndexedHeap
