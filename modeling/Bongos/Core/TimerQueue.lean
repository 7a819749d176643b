import Bongos.Core.Timer
import Bongos.IndexedHeap
import Mathlib.Data.Prod.Lex
import Mathlib.Tactic.Set

/-!
# The timer heap holds its timers

Insertion and removal keep the heap: its slots hold each timer once, every timer knows its slot, and
no timer is due before its parent. Both go through a sift, which keeps the timer that is being moved
in a variable; the array in which that timer fills the hole is the one the heap library speaks of.
-/

namespace Bongos.Core

open Set (BijOn Iio mem_Iio)

open Function (update update_eq_self update_of_ne update_self)

open IndexedHeap

/-- What `timerBefore` compares. -/
def TimerObj.key (o : TimerObj) : ℕ ×ₗ ℕ := toLex (o.deadlineNs.toNat, o.seq.toNat)

theorem timerBefore_iff (a b : TimerObj) : timerBefore a b = true ↔ a.key < b.key := by
  unfold timerBefore TimerObj.key
  rw [Prod.Lex.toLex_lt_toLex, Bool.or_eq_true, Bool.and_eq_true, decide_eq_true_eq,
    decide_eq_true_eq, beq_iff_eq, BitVec.toNat_inj]
  rfl

theorem timerBefore_eq_false (a b : TimerObj) : timerBefore a b = false ↔ b.key ≤ a.key := by
  rw [← Bool.not_eq_true, timerBefore_iff, not_lt]

/-- A timer object without its place in the heap. -/
def TimerObj.data (o : TimerObj) : TimerObj := { o with heapIndex := 0 }

/-- Only the heap moved. -/
structure SameData (s s' : TimerSys) : Prop where
  data : ∀ t, (s'.timer t).data = (s.timer t).data
  nextSeq : s'.nextSeq = s.nextSeq
  timersReady : s'.timersReady = s.timersReady

theorem SameData.refl (s : TimerSys) : SameData s s := ⟨fun _ => rfl, rfl, rfl⟩

theorem SameData.trans {a b c : TimerSys} (h : SameData a b) (h' : SameData b c) : SameData a c :=
  ⟨fun t => (h'.data t).trans (h.data t), h'.nextSeq.trans h.nextSeq,
    h'.timersReady.trans h.timersReady⟩

variable {s s' : TimerSys}

theorem SameData.key_eq (h : SameData s s') (t : ℕ) : (s'.timer t).key = (s.timer t).key := by
  change (s'.timer t).data.key = (s.timer t).data.key
  rw [h.data t]

theorem SameData.state_eq (h : SameData s s') (t : ℕ) : (s'.timer t).state = (s.timer t).state := by
  change (s'.timer t).data.state = (s.timer t).data.state
  rw [h.data t]

theorem heapPlace_sameData (s : TimerSys) (i t : ℕ) : SameData s (heapPlace s i t) := by
  refine ⟨fun u => ?_, rfl, rfl⟩
  by_cases hu : u = t
  · subst hu
    simp [heapPlace, TimerSys.modify, TimerObj.data]
  · simp [heapPlace, TimerSys.modify, hu]

theorem heapPlace_heapIndex (i t : ℕ) : ((heapPlace s i t).timer t).heapIndex = i := by
  simp [heapPlace, TimerSys.modify]

theorem heapPlace_timer_of_ne (i : ℕ) {t u : ℕ} (h : u ≠ t) :
    (heapPlace s i t).timer u = s.timer u := update_of_ne h _ _

/-- Each timer of `live` has the number of timers that had entered before it, which `seq` cuts to 64
bits. -/
structure Stamped (s : TimerSys) (live : Set ℕ) (count : ℕ) (stamp : ℕ → ℕ) : Prop where
  nextSeq : s.nextSeq = BitVec.ofNat 64 count
  seq : ∀ t ∈ live, (s.timer t).seq = BitVec.ofNat 64 (stamp t)
  lt : ∀ t ∈ live, stamp t < count
  inj : Set.InjOn stamp live

section Stamped

variable {live live' : Set ℕ} {n t u : ℕ} {stamp : ℕ → ℕ} (h : Stamped s live n stamp)

include h

theorem Stamped.mono (hnext : s'.nextSeq = s.nextSeq)
    (hsub : ∀ u ∈ live', u ∈ live ∧ (s'.timer u).seq = (s.timer u).seq) :
    Stamped s' live' n stamp :=
  ⟨hnext.trans h.nextSeq, fun u hu => (hsub u hu).2.trans (h.seq u (hsub u hu).1),
    fun u hu => h.lt u (hsub u hu).1, h.inj.mono fun u hu => (hsub u hu).1⟩

/-- A timer that enters gets the next number. -/
theorem Stamped.insert (hnext : s'.nextSeq = s.nextSeq + 1) (hself : (s'.timer t).seq = s.nextSeq)
    (hsub : ∀ u ∈ live', u ≠ t → u ∈ live ∧ (s'.timer u).seq = (s.timer u).seq) :
    Stamped s' live' (n + 1) (update stamp t n) := by
  -- The other timers keep their numbers, which are below the new one.
  have hlt : ∀ u ∈ live', u ≠ t → update stamp t n u < n := fun u hu hut => by
    rw [update_of_ne hut]
    exact h.lt u (hsub u hu hut).1
  refine ⟨?_, fun u hu => ?_, fun u hu => ?_, fun u hu v hv heq => ?_⟩
  · rw [hnext, h.nextSeq, BitVec.ofNat_add]
    rfl
  · rcases eq_or_ne u t with rfl | hut
    · rw [hself, h.nextSeq, update_self]
    · rw [update_of_ne hut, (hsub u hu hut).2]
      exact h.seq u (hsub u hu hut).1
  · rcases eq_or_ne u t with rfl | hut
    · rw [update_self]
      exact Nat.lt_succ_self n
    · exact Nat.lt_succ_of_lt (hlt u hu hut)
  · by_cases hut : u = t
    · by_cases hvt : v = t
      · rw [hut, hvt]
      · rw [hut, update_self] at heq
        exact absurd (hlt v hv hvt) heq.le.not_gt
    · by_cases hvt : v = t
      · rw [hvt, update_self] at heq
        exact absurd (hlt u hu hut) heq.ge.not_gt
      · rw [update_of_ne hut, update_of_ne hvt] at heq
        exact h.inj (hsub u hu hut).1 (hsub v hv hvt).1 heq

/-- While `seq` has not wrapped, the order of the keys is that of the deadlines, and then of the
numbers that were given out. -/
theorem Stamped.before (hwrap : n ≤ 2 ^ 64) (ht : t ∈ live) (hu : u ∈ live)
    (hle : (s.timer t).key ≤ (s.timer u).key) (hne : t ≠ u) :
    (s.timer t).deadlineNs < (s.timer u).deadlineNs ∨
      (s.timer t).deadlineNs = (s.timer u).deadlineNs ∧ stamp t < stamp u := by
  rcases Prod.Lex.toLex_le_toLex.1 hle with hlt | ⟨heq, hseq⟩
  · exact .inl (BitVec.lt_def.2 hlt)
  · have hlt := h.lt t ht
    have hlt' := h.lt u hu
    simp only [h.seq t ht, h.seq u hu, BitVec.toNat_ofNat] at hseq
    rw [Nat.mod_eq_of_lt (by omega), Nat.mod_eq_of_lt (by omega)] at hseq
    exact .inr ⟨BitVec.eq_of_toNat_eq heq, hseq.lt_of_ne fun h' => hne (h.inj ht hu h')⟩

end Stamped

/-- The heap holds the timers of `live`, each where it believes to be, in order. -/
structure HeapOk (s : TimerSys) (live : Set ℕ) : Prop where
  count_le : s.count ≤ TIMER_HEAP_CAP
  bijOn : BijOn s.slot (Iio s.count) live
  index : ∀ j < s.count, (s.timer (s.slot j)).heapIndex = j
  /-- The slots past the end are empty. -/
  tail : ∀ j, s.count ≤ j → s.slot j = 0
  ordered : Ordered (fun t => (s.timer t).key) s.slot s.count

theorem HeapOk.empty (hcount : s.count = 0) (hslot : ∀ j, s.slot j = 0) : HeapOk s ∅ := by
  have hIio : Iio s.count = ∅ := by
    ext j
    simp [hcount]
  refine ⟨hcount ▸ Nat.zero_le _, by rw [hIio]; exact Set.bijOn_empty _, ?_, fun j _ => hslot j, ?_⟩
  · rw [hcount]
    exact fun j hj => absurd hj (Nat.not_lt_zero j)
  · rw [hcount]
    exact fun j _ hj => absurd hj (Nat.not_lt_zero j)

/-- A sift of `t` that has reached position `i`. -/
structure Sifting (s : TimerSys) (t i : ℕ) (live : Set ℕ) : Prop where
  count_le : s.count ≤ TIMER_HEAP_CAP
  lt : i < s.count
  bijOn : BijOn (update s.slot i t) (Iio s.count) live
  index : ∀ j < s.count, j ≠ i → (s.timer (s.slot j)).heapIndex = j
  tail : ∀ j, s.count ≤ j → s.slot j = 0

/-- A sift that has ended. -/
structure Sifted (s : TimerSys) (live : Set ℕ) (s' : TimerSys) : Prop where
  heap : HeapOk s' live
  same : SameData s s'
  count : s'.count = s.count

section Sift

variable {s : TimerSys} {t i p : ℕ} {live : Set ℕ}

/-- One round writes the timer at `p` to the hole, which is the swap of the two. -/
theorem update_move (v : ℕ → ℕ) (hp : p ≠ i) :
    update (update v i (v p)) p t = update v i t ∘ Equiv.swap i p := by
  funext j
  rw [Function.comp_apply]
  rcases eq_or_ne j p with rfl | hjp
  · rw [Equiv.swap_apply_right, update_self, update_self]
  · rw [update_of_ne hjp]
    rcases eq_or_ne j i with rfl | hji
    · rw [Equiv.swap_apply_left, update_self, update_of_ne hp]
    · rw [Equiv.swap_apply_of_ne_of_ne hji hjp, update_of_ne hji, update_of_ne hji]

theorem Sifting.slot_ne (h : Sifting s t i live) {j k : ℕ} (hj : j < s.count) (hk : k < s.count)
    (hji : j ≠ i) (hki : k ≠ i) (hjk : j ≠ k) : s.slot j ≠ s.slot k := by
  intro heq
  refine hjk (h.bijOn.injOn hj hk ?_)
  rwa [update_of_ne hji, update_of_ne hki]

/-- A write at the hole leaves the slots past the end. -/
theorem Sifting.tail_update (h : Sifting s t i live) (u j : ℕ) (hj : s.count ≤ j) :
    update s.slot i u j = 0 :=
  (update_of_ne (h.lt.trans_le hj).ne' _ _).trans (h.tail j hj)

theorem Sifting.move (h : Sifting s t i live) (hp : p < s.count) (hpi : p ≠ i) :
    Sifting (heapPlace s i (s.slot p)) t p live := by
  refine ⟨h.count_le, hp, ?_, fun j hj hjp => ?_, h.tail_update _⟩
  · show BijOn (update (update s.slot i (s.slot p)) p t) _ _
    rw [update_move s.slot hpi]
    exact bijOn_swap h.bijOn h.lt hp
  · show ((heapPlace s i (s.slot p)).timer (update s.slot i (s.slot p) j)).heapIndex = j
    rcases eq_or_ne j i with rfl | hji
    · rw [update_self, heapPlace_heapIndex]
    · rw [update_of_ne hji, heapPlace_timer_of_ne _ (h.slot_ne hj hp hji hpi hjp)]
      exact h.index j hj hji

/-- The write that ends a sift. -/
theorem Sifting.place (h : Sifting s t i live)
    (ho : Ordered (fun u => (s.timer u).key) (update s.slot i t) s.count) :
    Sifted s live (heapPlace s i t) := by
  refine ⟨⟨h.count_le, h.bijOn, fun j hj => ?_, h.tail_update t, ?_⟩, heapPlace_sameData s i t, rfl⟩
  · show ((heapPlace s i t).timer (update s.slot i t j)).heapIndex = j
    rcases eq_or_ne j i with rfl | hji
    · rw [update_self, heapPlace_heapIndex]
    · have hne : s.slot j ≠ t := fun heq => by
        refine hji (h.bijOn.injOn hj h.lt ?_)
        rw [update_self, update_of_ne hji, heq]
      rw [update_of_ne hji, heapPlace_timer_of_ne _ hne]
      exact h.index j hj hji
  · exact ho.congr fun j _ => (heapPlace_sameData s i t).key_eq _

theorem Sifted.of_move {u : ℕ} (h : Sifted (heapPlace s i u) live s') : Sifted s live s' :=
  ⟨h.heap, (heapPlace_sameData s i u).trans h.same, h.count⟩

/-- The loop going up ends with a heap. -/
theorem siftUpLoop_spec {fuel : ℕ} (hfuel : i ≤ fuel) (h : Sifting s t i live)
    (hup : NearUp (fun u => (s.timer u).key) (update s.slot i t) s.count i) :
    Sifted s live (siftUpLoop t fuel i s) := by
  induction fuel generalizing i s with
  | zero =>
    obtain rfl := Nat.le_zero.1 hfuel
    exact h.place (hup.done fun hi => absurd hi (lt_irrefl 0))
  | succ fuel ih =>
    unfold siftUpLoop
    dsimp only
    split_ifs with hi hstop
    · refine h.place (hup.done fun _ => ?_)
      rw [Bool.not_eq_true', timerBefore_eq_false] at hstop
      have hne : parent i ≠ i := (parent_lt hi).ne
      rw [update_self, update_of_ne hne]
      exact hstop
    · rw [Bool.not_eq_true', Bool.not_eq_false, timerBefore_iff] at hstop
      have hp := parent_lt hi
      have hup' := hup.swap hi h.lt (by
        rw [update_self, update_of_ne hp.ne]
        exact hstop)
      rw [← update_move s.slot hp.ne] at hup'
      have hkey : (fun u => ((heapPlace s i (s.slot (parent i))).timer u).key) =
          fun u => (s.timer u).key := funext (heapPlace_sameData s i _).key_eq
      have hrest := ih (by omega) (h.move (hp.trans h.lt) hp.ne) (by rw [hkey]; exact hup')
      exact hrest.of_move
    · exact h.place (hup.done fun h0 => absurd h0 hi)

/-- The child that `siftDown` looks at. -/
def smallerChild (s : TimerSys) (i : ℕ) : ℕ :=
  if 2 * i + 1 + 1 < s.count &&
      timerBefore (s.timer (s.slot (2 * i + 1 + 1))) (s.timer (s.slot (2 * i + 1))) then
    2 * i + 1 + 1
  else 2 * i + 1

/-- It is a child, and no child is due before it. -/
theorem smallerChild_spec (hlt : 2 * i + 1 < s.count) :
    parent (smallerChild s i) = i ∧ i < smallerChild s i ∧ smallerChild s i < s.count ∧
      ∀ j, 0 < j → j < s.count → parent j = i →
        (s.timer (s.slot (smallerChild s i))).key ≤ (s.timer (s.slot j)).key := by
  unfold smallerChild
  split_ifs with hright
  · rw [Bool.and_eq_true, decide_eq_true_eq, timerBefore_iff] at hright
    refine ⟨(parent_eq_iff (by omega)).2 (.inr rfl), by omega, hright.1, fun j hj hjn hji => ?_⟩
    rcases (parent_eq_iff hj).1 hji with rfl | rfl
    · exact hright.2.le
    · exact le_rfl
  · refine ⟨(parent_eq_iff (by omega)).2 (.inl rfl), by omega, hlt, fun j hj hjn hji => ?_⟩
    rcases (parent_eq_iff hj).1 hji with rfl | rfl
    · exact le_rfl
    · rw [Bool.and_eq_true, decide_eq_true_eq, not_and, Bool.not_eq_true,
        timerBefore_eq_false] at hright
      exact hright hjn

/-- The loop going down ends with a heap. -/
theorem siftDownLoop_spec {fuel : ℕ} (hfuel : s.count ≤ fuel + i) (h : Sifting s t i live)
    (hdown : NearDown (fun u => (s.timer u).key) (update s.slot i t) s.count i) :
    Sifted s live (siftDownLoop t fuel i s) := by
  induction fuel generalizing i s with
  | zero => exact absurd h.lt (by omega)
  | succ fuel ih =>
    unfold siftDownLoop
    -- The positions below `i` hold what the slots say.
    have hslot : ∀ j, i < j → update s.slot i t j = s.slot j :=
      fun j hj => update_of_ne hj.ne' _ _
    have hchild : ∀ j, 0 < j → parent j = i → i < j := fun j hj hji => hji ▸ parent_lt hj
    by_cases hleaf : 2 * i + 1 ≥ s.count
    · rw [if_pos hleaf]
      refine h.place (hdown.done fun j hj hjn hji => ?_)
      rcases (parent_eq_iff hj).1 hji with rfl | rfl <;> omega
    · rw [if_neg hleaf]
      obtain ⟨hpar, hic, hcn, hmin⟩ := smallerChild_spec (Nat.not_le.1 hleaf)
      change Sifted s live (if !timerBefore (s.timer (s.slot (smallerChild s i))) (s.timer t) then
          heapPlace s i t
        else siftDownLoop t fuel (smallerChild s i) (heapPlace s i (s.slot (smallerChild s i))))
      generalize smallerChild s i = c at hpar hic hcn hmin
      split_ifs with hstop
      · rw [Bool.not_eq_true', timerBefore_eq_false] at hstop
        refine h.place (hdown.done fun j hj hjn hji => ?_)
        rw [update_self, hslot j (hchild j hj hji)]
        exact hstop.trans (hmin j hj hjn hji)
      · rw [Bool.not_eq_true', Bool.not_eq_false, timerBefore_iff] at hstop
        have hdown' := hdown.swap (by omega) hpar
          (fun j hj hjn hji => by
            rw [hslot c hic, hslot j (hchild j hj hji)]
            exact hmin j hj hjn hji)
          hcn (by rw [hslot c hic, update_self]; exact hstop)
        rw [← update_move s.slot hic.ne'] at hdown'
        have hkey : (fun u => ((heapPlace s i (s.slot c)).timer u).key) =
            fun u => (s.timer u).key := funext (heapPlace_sameData s i _).key_eq
        have hfuel' : (heapPlace s i (s.slot c)).count ≤ fuel + c := by
          show s.count ≤ fuel + c
          omega
        exact .of_move (ih hfuel' (h.move hcn hic.ne') (by rw [hkey]; exact hdown'))

end Sift

/-! ## Insertion and removal -/

variable {live : Set ℕ} {i : ℕ}

/-- A sift started at a slot. -/
theorem siftUp_spec (h : Sifting s (s.slot i) i live)
    (hup : NearUp (fun u => (s.timer u).key) s.slot s.count i) :
    Sifted s live (siftUp s i) :=
  siftUpLoop_spec le_rfl h (by rwa [update_eq_self])

/-- Insertion into a heap with room. -/
theorem timerHeapInsert_spec {t : ℕ} (h : HeapOk s live)
    (ht : t ∉ live) (hroom : s.count < TIMER_HEAP_CAP) :
    ∃ s', timerHeapInsert s t = (.ok, s') ∧ HeapOk s' (insert t live) ∧
      SameData { s.modify t (fun o => { o with seq := s.nextSeq, state := .armed }) with
        nextSeq := s.nextSeq + 1 } s' := by
  set s1 : TimerSys := { s.modify t (fun o => { o with seq := s.nextSeq, state := .armed }) with
    nextSeq := s.nextSeq + 1, count := s.count + 1 } with hs1
  set s2 := heapPlace s1 s.count t with hs2
  have hslot : ∀ j < s.count, s2.slot j = s.slot j := fun j hj => update_of_ne hj.ne _ _
  have hself : s2.slot s.count = t := update_self _ _ _
  have hne : ∀ j < s.count, s.slot j ≠ t := fun j hj heq => ht (heq ▸ h.bijOn.mapsTo hj)
  -- The timers that are in the heap already are not written to.
  have hold : ∀ j < s.count, s2.timer (s.slot j) = s.timer (s.slot j) := fun j hj => by
    rw [hs2, heapPlace_timer_of_ne _ (hne j hj), hs1]
    exact update_of_ne (hne j hj) _ _
  have hbij : BijOn s2.slot (Iio (s.count + 1)) (insert t live) := by
    have := bijOn_push h.bijOn hslot (by rwa [hself])
    rwa [hself] at this
  have hsift : Sifting s2 (s2.slot s.count) s.count (insert t live) := by
    refine ⟨hroom, Nat.lt_succ_self s.count, ?_, fun j hj hji => ?_, fun j hj => ?_⟩
    · rwa [update_eq_self]
    · have hj' : j < s.count := Nat.lt_of_le_of_ne (Nat.le_of_lt_succ hj) hji
      rw [hslot j hj', hold j hj']
      exact h.index j hj'
    · have hj' : s.count < j := hj
      exact (update_of_ne hj'.ne' _ _).trans (h.tail j hj'.le)
  have hup : NearUp (fun u => (s2.timer u).key) s2.slot s2.count s.count :=
    h.ordered.push fun j hj => by rw [hslot j hj, hold j hj]
  obtain ⟨hok, hsame, -⟩ := siftUp_spec hsift hup
  refine ⟨siftUp s2 s.count, ?_, hok, ?_⟩
  · rw [timerHeapInsert, if_neg (Nat.not_le.2 hroom)]
  · have hplace := heapPlace_sameData s1 s.count t
    exact ⟨fun u => (hsame.data u).trans (hplace.data u), hsame.nextSeq, hsame.timersReady⟩

/-- The last timer of the heap in the place of another: the swap of the two, and the last one left
out. -/
theorem bijOn_fill {last : ℕ} {v : ℕ → ℕ}
    (h : BijOn s.slot (Iio (last + 1)) live) (hi : i < last) (hv : v i = s.slot last)
    (hrest : ∀ j < last, j ≠ i → v j = s.slot j) :
    BijOn v (Iio last) (live \ {s.slot i}) := by
  have hpop := bijOn_pop (bijOn_swap h (hi.trans (Nat.lt_succ_self last)) (Nat.lt_succ_self last))
  rw [Function.comp_apply, Equiv.swap_apply_right] at hpop
  refine hpop.congr fun j hj => ?_
  rw [Function.comp_apply]
  rcases eq_or_ne j i with rfl | hji
  · rw [Equiv.swap_apply_left, hv]
  · rw [Equiv.swap_apply_of_ne_of_ne hji (mem_Iio.1 hj).ne, hrest j hj hji]

/-- Removal of a timer of the heap. -/
theorem timerHeapRemove_spec {t : ℕ} (h : HeapOk s live)
    (ht : t ∈ live) : HeapOk (timerHeapRemove s t) (live \ {t}) ∧ SameData s (timerHeapRemove s t) ∧
      (timerHeapRemove s t).count + 1 = s.count := by
  obtain ⟨i, hi, rfl⟩ := h.bijOn.surjOn ht
  rw [mem_Iio] at hi
  obtain ⟨last, hlast⟩ : ∃ last, s.count = last + 1 := ⟨s.count - 1, by omega⟩
  have hbij := h.bijOn
  have hcap := h.count_le
  rw [hlast] at hbij hcap
  unfold timerHeapRemove
  rw [h.index i hi, hlast, Nat.add_sub_cancel]
  dsimp only
  set s1 : TimerSys := { s with count := last, slot := update s.slot last 0 } with hs1
  have hslot1 : ∀ j < last, s1.slot j = s.slot j := fun j hj => update_of_ne hj.ne _ _
  have htail1 : ∀ j, last ≤ j → s1.slot j = 0 := fun j hj => by
    rcases eq_or_ne j last with rfl | hne
    · exact update_self _ _ _
    · exact (update_of_ne hne _ _).trans (h.tail j (by omega))
  have hord : Ordered (fun u => (s.timer u).key) s.slot last :=
    h.ordered.mono (by omega)
  by_cases hil : i = last
  · rw [if_pos hil]
    refine ⟨⟨(Nat.le_succ last).trans hcap, ?_, fun j hj => ?_, htail1, ?_⟩,
      ⟨fun _ => rfl, rfl, rfl⟩, rfl⟩
    · rw [hil]
      exact (bijOn_pop hbij).congr fun j hj => (hslot1 j hj).symm
    · rw [hslot1 j hj]
      exact h.index j (hlast ▸ Nat.lt_succ_of_lt hj)
    · exact hord.congr fun j hj => by rw [hslot1 j hj]
  · have hi' : i < last := by omega
    set s2 := heapPlace s1 i (s.slot last) with hs2
    have hself : s2.slot i = s.slot last := update_self _ _ _
    have hslot : ∀ j < last, j ≠ i → s2.slot j = s.slot j := fun j hj hji =>
      (update_of_ne hji _ _).trans (hslot1 j hj)
    have hsame : SameData s s2 :=
      SameData.trans (b := s1) ⟨fun _ => rfl, rfl, rfl⟩ (heapPlace_sameData s1 i (s.slot last))
    have hkey : (fun u => (s2.timer u).key) = fun u => (s.timer u).key := funext hsame.key_eq
    have hsift : Sifting s2 (s2.slot i) i (live \ {s.slot i}) := by
      refine ⟨(Nat.le_succ last).trans hcap, hi', ?_, fun j hj hji => ?_, fun j hj => ?_⟩
      · rw [update_eq_self]
        exact bijOn_fill hbij hi' hself hslot
      · have hj' : j < last := hj
        have hne : s.slot j ≠ s.slot last := fun heq =>
          hj'.ne (hbij.injOn (mem_Iio.2 (by omega)) (mem_Iio.2 (by omega)) heq)
        rw [hslot j hj' hji, hs2, heapPlace_timer_of_ne _ hne]
        exact h.index j (by omega)
      · exact (update_of_ne (hi'.trans_le hj).ne' _ _).trans (htail1 j hj)
    -- The timer that fills the gap comes from the end, so it may belong above or below.
    split_ifs with hup
    · rw [Bool.and_eq_true, decide_eq_true_eq, timerBefore_iff, hsame.key_eq, hsame.key_eq] at hup
      have hp := parent_lt hup.1
      have hnear : NearUp (fun u => (s2.timer u).key) s2.slot last i := by
        rw [hkey]
        refine hord.replace_up hslot hup.1 ?_
        rw [hself, ← hslot (parent i) (by omega) hp.ne]
        exact hup.2
      obtain ⟨hok, hdata, hcount⟩ := siftUp_spec hsift hnear
      exact ⟨hok, hsame.trans hdata, congrArg (· + 1) hcount⟩
    · have hnear : NearDown (fun u => (s2.timer u).key) s2.slot last i := by
        rw [hkey]
        refine hord.replace_down hslot fun hpos => ?_
        have hp := parent_lt hpos
        rw [decide_eq_true hpos, Bool.true_and, Bool.not_eq_true, timerBefore_eq_false,
          hsame.key_eq, hsame.key_eq] at hup
        rw [hself, ← hslot (parent i) (by omega) hp.ne]
        exact hup
      obtain ⟨hok, hdata, hcount⟩ :=
        siftDownLoop_spec (Nat.le_add_right _ _) hsift (by rwa [update_eq_self])
      exact ⟨hok, hsame.trans hdata, congrArg (· + 1) hcount⟩

/-- The timer at the root is due no later than any other. -/
theorem HeapOk.timerHeapPeek_spec (h : HeapOk s live)
    (hpos : 0 < s.count) : timerHeapPeek s ∈ live ∧
      ∀ t ∈ live, (s.timer (timerHeapPeek s)).key ≤ (s.timer t).key := by
  rw [timerHeapPeek, if_neg hpos.ne']
  refine ⟨h.bijOn.mapsTo (mem_Iio.2 hpos), fun t ht => ?_⟩
  obtain ⟨j, hj, rfl⟩ := h.bijOn.surjOn ht
  exact h.ordered.root_le hj

end Bongos.Core
