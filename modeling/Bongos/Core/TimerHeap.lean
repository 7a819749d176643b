import Bongos.Run
import Bongos.Core.TimerOps

/-!
# The timer heap is a priority queue

Runs of `timerHeapInsert`, `timerHeapRemove` and `timerHeapPop` from `timerHeapInit`, with any
writes to timers that are not in the heap in between. The world remembers which timers are in the
heap and how many insertions came before each; `seq` is that number cut to 64 bits, so timers with
one deadline leave in the order of their insertions as long as it has not wrapped.
-/

namespace Bongos.Core

open List

open Function (update update_of_ne update_self)

open IndexedHeap

/-- The heap, the timers that were inserted and not removed, and the order of the insertions. -/
structure HeapWorld where
  sys : TimerSys
  live : Set ℕ
  inserts : ℕ
  stamp : ℕ → ℕ

/-- After `timerHeapInit`, over any timer objects. -/
def HeapWorld.init (s : TimerSys) : HeapWorld := ⟨timerHeapInit s, ∅, 0, fun _ => 0⟩

/-- One call, or a write to a timer that is not in the heap, such as that of its deadline. -/
inductive HeapStep : HeapWorld → HeapWorld → Prop
  | insert {w : HeapWorld} {t : ℕ} {s : TimerSys} (ht0 : t ≠ 0) (ht : t ∉ w.live)
      (h : timerHeapInsert w.sys t = (.ok, s)) :
      HeapStep w ⟨s, insert t w.live, w.inserts + 1, update w.stamp t w.inserts⟩
  | refused {w : HeapWorld} {t : ℕ} {st : Status} {s : TimerSys} (ht : t ∉ w.live)
      (h : timerHeapInsert w.sys t = (st, s)) (hst : st ≠ .ok) :
      HeapStep w ⟨s, w.live, w.inserts, w.stamp⟩
  | remove {w : HeapWorld} {t : ℕ} (ht : t ∈ w.live) :
      HeapStep w { w with sys := timerHeapRemove w.sys t, live := w.live \ {t} }
  | pop {w : HeapWorld} :
      HeapStep w { w with
        sys := (timerHeapPop w.sys).2, live := w.live \ {(timerHeapPop w.sys).1} }
  | write {w : HeapWorld} {t : ℕ} {f : TimerObj → TimerObj} (ht : t ∉ w.live) :
      HeapStep w { w with sys := w.sys.modify t f }

/-! ## The invariant -/

/-- What every step keeps. -/
structure HeapInv (w : HeapWorld) : Prop where
  heap : HeapOk w.sys w.live
  null : 0 ∉ w.live
  stamped : Stamped w.sys w.live w.inserts w.stamp

variable {s s' : TimerSys}

theorem SameData.seq_eq (h : SameData s s') (t : ℕ) :
    (s'.timer t).seq = (s.timer t).seq := (data_eq_iff.1 (h.data t)).2.1

theorem SameData.deadlineNs_eq (h : SameData s s') (t : ℕ) :
    (s'.timer t).deadlineNs = (s.timer t).deadlineNs := (data_eq_iff.1 (h.data t)).1

namespace HeapInv

variable {w w' : HeapWorld} {t : ℕ}

theorem init (s : TimerSys) : HeapInv (.init s) :=
  ⟨.empty rfl fun _ => rfl, Set.notMem_empty 0, rfl, fun t ht => absurd ht (Set.notMem_empty t),
    fun t ht => absurd ht (Set.notMem_empty t), Set.injOn_empty _⟩

section

variable (h : HeapInv w)

include h

/-- Fewer timers, in a heap that only moved. -/
theorem shrink {s : TimerSys} {live : Set ℕ} (hok : HeapOk s live) (hdata : SameData w.sys s)
    (hsub : live ⊆ w.live) : HeapInv { w with sys := s, live := live } :=
  ⟨hok, fun h0 => h.null (hsub h0),
    h.stamped.mono hdata.nextSeq fun t ht => ⟨hsub ht, hdata.seq_eq t⟩⟩

theorem remove (ht : t ∈ w.live) :
    HeapInv { w with sys := timerHeapRemove w.sys t, live := w.live \ {t} } := by
  obtain ⟨hok, hdata, -⟩ := timerHeapRemove_spec h.heap ht
  exact h.shrink hok hdata Set.sdiff_subset

/-- What `timerHeapPop` returns. -/
theorem pop_cases : (w.sys.count = 0 ∧ w.live = ∅ ∧ timerHeapPop w.sys = (0, w.sys)) ∨
      ∃ t ∈ w.live, t ≠ 0 ∧ timerHeapPop w.sys = (t, timerHeapRemove w.sys t) ∧
        ∀ u ∈ w.live, (w.sys.timer t).key ≤ (w.sys.timer u).key := by
  rcases Nat.eq_zero_or_pos w.sys.count with h0 | hpos
  · refine .inl ⟨h0, ?_, ?_⟩
    · have hbij := h.heap.bijOn
      rw [h0] at hbij
      rw [← hbij.image_eq]
      ext j
      simp
    · simp [timerHeapPop, timerHeapPeek, h0]
  · obtain ⟨hmem, hmin⟩ := h.heap.timerHeapPeek_spec hpos
    have hne : timerHeapPeek w.sys ≠ 0 := fun h0 => h.null (h0 ▸ hmem)
    exact .inr ⟨_, hmem, hne, by rw [timerHeapPop, if_pos hne], hmin⟩

theorem pop : HeapInv { w with
    sys := (timerHeapPop w.sys).2, live := w.live \ {(timerHeapPop w.sys).1} } := by
  rcases h.pop_cases with ⟨-, -, hpop⟩ | ⟨t, ht, -, hpop, -⟩
  · rw [hpop, Set.sdiff_singleton_eq_self h.null]
    exact h
  · rw [hpop]
    exact h.remove ht

theorem insert {s : TimerSys} (ht0 : t ≠ 0) (ht : t ∉ w.live)
    (hins : timerHeapInsert w.sys t = (.ok, s)) :
    HeapInv ⟨s, Insert.insert t w.live, w.inserts + 1, update w.stamp t w.inserts⟩ := by
  have hroom : w.sys.count < TIMER_HEAP_CAP := by
    by_contra hfull
    rw [timerHeapInsert, if_pos (Nat.not_lt.1 hfull)] at hins
    cases hins
  obtain ⟨s', hins', hok, hdata⟩ := timerHeapInsert_spec h.heap ht hroom
  rw [hins] at hins'
  cases hins'
  refine ⟨hok, fun h0 => h0.elim (fun e => ht0 e.symm) h.null,
    h.stamped.insert hdata.nextSeq ?_ fun u hu hut => ⟨hu.resolve_left hut, ?_⟩⟩
  · rw [hdata.seq_eq, modify_timer_self]
  · rw [hdata.seq_eq, modify_timer_of_ne hut]

theorem step (hs : HeapStep w w') : HeapInv w' := by
  cases hs with
  | insert ht0 ht hins => exact h.insert ht0 ht hins
  | @refused t st s ht hins hst =>
    have hfull : timerHeapInsert w.sys t = (.errNoMemory, w.sys) := by
      by_contra hno
      rw [timerHeapInsert] at hno
      split_ifs at hno with hroom
      · exact hno rfl
      · obtain ⟨s', hok, -⟩ := timerHeapInsert_spec h.heap ht (Nat.not_le.1 hroom)
        rw [hok] at hins
        cases hins
        exact hst rfl
    rw [hfull] at hins
    cases hins
    exact h
  | remove ht => exact h.remove ht
  | pop => exact h.pop
  | @write t f ht =>
    refine ⟨h.heap.modify ht, h.null, h.stamped.mono rfl fun u hu => ⟨hu, ?_⟩⟩
    have hne : u ≠ t := fun heq => ht (heq ▸ hu)
    simp only [modify_timer_of_ne hne]

/-- `timerHeapCheck` finds nothing. -/
theorem check : timerHeapCheck w.sys = true := by
  unfold timerHeapCheck
  simp only [Bool.and_eq_true, decide_eq_true_eq, all_eq_true, mem_range, mem_range'_1]
  refine ⟨⟨h.heap.count_le, fun i hi => ⟨⟨?_, h.heap.index i hi⟩, ?_⟩⟩, fun j hj => ?_⟩
  · exact fun h0 => h.null (h0 ▸ h.heap.bijOn.mapsTo hi)
  · rw [Bool.not_eq_true', Bool.and_eq_false_iff, decide_eq_false_iff_not, timerBefore_eq_false]
    by_cases hpos : 0 < i
    · exact .inr (h.heap.ordered i hpos hi)
    · exact .inl hpos
  · exact h.heap.tail j hj.1

end

end HeapInv

/-! ## Pops -/

/-- `timerHeapPop`, as often as there is a timer and at most `n` times: what it returned. -/
def timerHeapPops : ℕ → TimerSys → List ℕ × TimerSys
  | 0, s => ([], s)
  | n + 1, s =>
    let (t, s) := timerHeapPop s
    if t = 0 then ([], s)
    else
      let (ts, s) := timerHeapPops n s
      (t :: ts, s)

/-- `t` is to leave the heap before `u`: by deadline, and then by the order of the insertions. -/
def InsertedBefore (w : HeapWorld) (t u : ℕ) : Prop :=
  (w.sys.timer t).deadlineNs < (w.sys.timer u).deadlineNs ∨
    (w.sys.timer t).deadlineNs = (w.sys.timer u).deadlineNs ∧ w.stamp t < w.stamp u

variable {w : HeapWorld}

/-- What popping `n` times from `w` gives: the first timers of the heap, in order. -/
structure Popped (w : HeapWorld) (n : ℕ) (ts : List ℕ) (s' : TimerSys) : Prop where
  length_eq : ts.length = min n w.sys.count
  mem_live : ∀ t ∈ ts, t ∈ w.live
  nodup : ts.Nodup
  sorted : ts.Pairwise fun t u => (w.sys.timer t).key ≤ (w.sys.timer u).key
  /-- Those that stay are not before those that left. -/
  rest : ∀ t ∈ ts, ∀ u ∈ w.live, u ∉ ts → (w.sys.timer t).key ≤ (w.sys.timer u).key
  bijOn : Set.BijOn s'.slot (Set.Iio s'.count) (w.live \ {t | t ∈ ts})

theorem HeapInv.pops (h : HeapInv w) (n : ℕ) :
    Popped w n (timerHeapPops n w.sys).1 (timerHeapPops n w.sys).2 := by
  induction n generalizing w with
  | zero =>
    refine ⟨by simp [timerHeapPops], by simp [timerHeapPops], by simp [timerHeapPops],
      by simp [timerHeapPops], by simp [timerHeapPops], ?_⟩
    simpa [timerHeapPops] using h.heap.bijOn
  | succ n ih =>
    rcases h.pop_cases with ⟨h0, hlive, hpop⟩ | ⟨t, ht, ht0, hpop, hmin⟩
    · have hpops : timerHeapPops (n + 1) w.sys = ([], w.sys) := by simp [timerHeapPops, hpop]
      rw [hpops]
      refine ⟨by simp [h0], by simp, by simp, by simp, by simp, ?_⟩
      simpa using h.heap.bijOn
    · obtain ⟨-, hdata, hcount⟩ := timerHeapRemove_spec h.heap ht
      set w1 : HeapWorld := { w with sys := timerHeapRemove w.sys t, live := w.live \ {t} } with hw1
      have hpops : timerHeapPops (n + 1) w.sys = (t :: (timerHeapPops n w1.sys).1,
          (timerHeapPops n w1.sys).2) := by
        simp [timerHeapPops, hpop, ht0, hw1]
      have p := ih (h.remove ht)
      rw [hpops]
      -- The order does not change when a timer leaves.
      have hkey : ∀ u, (w1.sys.timer u).key = (w.sys.timer u).key := hdata.key_eq
      refine ⟨?_, fun u hu => ?_, ?_, ?_, fun u hu v hv hnot => ?_, ?_⟩
      · have hlen : (timerHeapPops n w1.sys).1.length = min n (timerHeapRemove w.sys t).count :=
          p.length_eq
        rw [length_cons]
        omega
      · rcases mem_cons.1 hu with rfl | hu
        · exact ht
        · exact (p.mem_live u hu).1
      · exact nodup_cons.2 ⟨fun hmem => (p.mem_live t hmem).2 rfl, p.nodup⟩
      · refine pairwise_cons.2 ⟨fun u hu => hmin u (p.mem_live u hu).1,
          p.sorted.imp fun {u v} huv => ?_⟩
        rwa [hkey, hkey] at huv
      · have hvt : v ≠ t := fun heq => hnot (heq ▸ mem_cons_self)
        rcases mem_cons.1 hu with rfl | hu
        · exact hmin v hv
        · have huv := p.rest u hu v ⟨hv, hvt⟩ fun hmem => hnot (mem_cons_of_mem t hmem)
          rwa [hkey, hkey] at huv
      · convert p.bijOn using 1
        ext u
        simp [hw1, and_assoc]

/-- The heap as a priority queue. -/
structure PriorityQueue (w : HeapWorld) : Prop where
  /-- Order, back-pointers, and empty slots. -/
  check : timerHeapCheck w.sys = true
  /-- The slots hold the timers that were inserted and not removed, each once. -/
  contents : Set.BijOn w.sys.slot (Set.Iio w.sys.count) w.live
  room : w.sys.count < TIMER_HEAP_CAP → ∀ t, t ∉ w.live → (timerHeapInsert w.sys t).1 = .ok
  full : ¬ w.sys.count < TIMER_HEAP_CAP → ∀ t, timerHeapInsert w.sys t = (.errNoMemory, w.sys)
  /-- Timers leave in the order of their keys: -/
  pops : ∀ n, Popped w n (timerHeapPops n w.sys).1 (timerHeapPops n w.sys).2
  /-- by deadline, and then in the order of their insertions. -/
  order : w.inserts ≤ 2 ^ 64 → ∀ n, (timerHeapPops n w.sys).1.Pairwise (InsertedBefore w) ∧
    ∀ t ∈ (timerHeapPops n w.sys).1, ∀ u ∈ w.live, u ∉ (timerHeapPops n w.sys).1 →
      InsertedBefore w t u

theorem HeapInv.priorityQueue (h : HeapInv w) : PriorityQueue w := by
  refine ⟨h.check, h.heap.bijOn, fun hroom t ht => ?_, fun hfull t => ?_, h.pops, fun hwrap n => ?_⟩
  · obtain ⟨s', hok, -⟩ := timerHeapInsert_spec h.heap ht hroom
    rw [hok]
  · rw [timerHeapInsert, if_pos (Nat.not_lt.1 hfull)]
  · have p := h.pops n
    refine ⟨(p.sorted.and p.nodup).imp_of_mem fun {t u} ht hu htu => ?_, fun t ht u hu hnot => ?_⟩
    · exact h.stamped.before hwrap (p.mem_live t ht) (p.mem_live u hu) htu.1 htu.2
    · exact h.stamped.before hwrap (p.mem_live t ht) hu (p.rest t ht u hu hnot) fun heq =>
        hnot (heq ▸ ht)

end Bongos.Core
