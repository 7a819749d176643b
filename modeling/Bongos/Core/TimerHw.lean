import Bongos.Core.TimerHeap
import Bongos.Core.TimerRun

/-!
# The hardware timer follows the queue

`timerArm`, `timerCancel` and `timeTimerIrq` with the calls of `reprogram` that the queue itself
does not depend on. The hardware is the last `archTimerSet`, as the time of the call and the delay,
or nothing after `archTimerStop`. `timerArm` and `timerCancel` reprogram only when they think that
the first deadline may have changed, and not at all during an expiry pass, which reprograms at its
end.
-/

namespace Bongos.Core

def TIMER_MAX_DELTA_NS : BitVec 64 := 1 <<< 40

/-- A call of `archTimerSet`, at the time `now`. -/
structure Programmed where
  now : BitVec 64
  deltaNs : BitVec 64
  deriving DecidableEq

/-- The time that the hardware waits for. -/
def Programmed.expiry (p : Programmed) : ℕ := p.now.toNat + p.deltaNs.toNat

/-- `bsp`, and the hardware. -/
structure TimerCpu where
  sys : TimerSys
  expiring : Bool
  hw : Option Programmed

/-- `reprogram`, at the time `now`. -/
def reprogram (now : BitVec 64) (s : TimerCpu) : TimerCpu :=
  if s.expiring then s
  else
    let root := timerHeapPeek s.sys
    if root = 0 then { s with hw := none }
    else
      let deadlineNs := (s.sys.timer root).deadlineNs
      let delta := if deadlineNs ≤ now then 0 else deadlineNs - now
      { s with hw := some ⟨now, if delta > TIMER_MAX_DELTA_NS then TIMER_MAX_DELTA_NS else delta⟩ }

/-- `timerArm`, with the hardware. -/
def timerArmCpu (now : BitVec 64) (s : TimerCpu) (t : ℕ) (deadlineNs : BitVec 64) : TimerCpu :=
  let oldRoot := timerHeapPeek s.sys
  let (st, sys) := timerArm s.sys t deadlineNs
  let s := { s with sys := sys }
  if st = .ok ∧ (timerHeapPeek sys ≠ oldRoot ∨ oldRoot = t) then reprogram now s else s

/-- `timerCancel`, with the hardware. -/
def timerCancelCpu (now : BitVec 64) (s : TimerCpu) (t : ℕ) : TimerCpu :=
  let wasRoot := timerHeapPeek s.sys = t
  let armed := t ≠ 0 ∧ (s.sys.timer t).state = .armed
  let s := { s with sys := (timerCancel s.sys t).2 }
  if armed ∧ wasRoot then reprogram now s else s

/-- An operation, with the hardware. -/
def runOpCpu (now : BitVec 64) (s : TimerCpu) : TimerOp → TimerCpu
  | .arm t deadlineNs => timerArmCpu now s t deadlineNs
  | .cancel t => timerCancelCpu now s t
  | .init t fn ctx => { s with sys := timerInit s.sys t fn ctx }

/-- One step: `timeInit`, an operation at any time, or a part of the expiry pass. Between its begin
and its end, callbacks are called for expired timers and their operations are steps of their own. -/
inductive TimerCpuStep : TimerCpu → TimerCpu → Prop
  | timeInit {s : TimerCpu} (h : s.sys.timersReady = false) :
      TimerCpuStep s ⟨timeInit s.sys, false, none⟩
  | op {s : TimerCpu} (now : BitVec 64) (op : TimerOp) (h : op.Legal s.sys) :
      TimerCpuStep s (runOpCpu now s op)
  | irqBegin {s : TimerCpu} (now : BitVec 64) (h : s.expiring = false) :
      TimerCpuStep s { s with
        sys := (collectDue now s.sys.count 0 0 s.sys).2, expiring := true }
  | irqCall {s : TimerCpu} {t : ℕ} (h : s.expiring = true) (ht : (s.sys.timer t).state = .expired) :
      TimerCpuStep s { s with sys := s.sys.setState t .idle }
  | irqEnd {s : TimerCpu} (now : BitVec 64) (h : s.expiring = true) :
      TimerCpuStep s (reprogram now { s with expiring := false })
  | timeReprogram {s : TimerCpu} (now : BitVec 64) : TimerCpuStep s (reprogram now s)

/-- Memory at boot, with the timer not running. -/
def TimerCpu.init : TimerCpu where
  sys :=
    { slot := fun _ => 0, count := 0, nextSeq := 0, timer := fun _ => ⟨0, 0, 0, 0, 0, 0, .idle⟩,
      timersReady := false }
  expiring := false
  hw := none

/-- The hardware waits for the first deadline: for that time itself, for the time of the call if it
was over by then, and at most for `TIMER_MAX_DELTA_NS`. -/
def HwExact (s : TimerCpu) : Prop :=
  if s.sys.count = 0 then s.hw = none
  else ∃ p, s.hw = some p ∧ p.expiry =
    min (max (s.sys.timer (timerHeapPeek s.sys)).deadlineNs.toNat p.now.toNat)
      (p.now.toNat + TIMER_MAX_DELTA_NS.toNat)

/-! ## The first deadline -/

section

variable {s s' : TimerSys}

theorem QueueInv.peek_armed (h : QueueInv s) (hpos : 0 < s.count) :
    (s.timer (timerHeapPeek s)).state = .armed ∧ timerHeapPeek s ≠ 0 := by
  obtain ⟨hmem, -⟩ := h.heap.timerHeapPeek_spec hpos
  have harmed : (s.timer (timerHeapPeek s)).state = .armed := hmem
  exact ⟨harmed, h.ne_zero (by rw [harmed]; exact TimerState.noConfusion)⟩

theorem QueueInv.peek_eq_zero_iff (h : QueueInv s) : timerHeapPeek s = 0 ↔ s.count = 0 := by
  constructor
  · intro h0
    by_contra hne
    exact (h.peek_armed (Nat.pos_of_ne_zero hne)).2 h0
  · intro h0
    rw [timerHeapPeek, if_pos h0]

theorem QueueInv.count_pos (h : QueueInv s) {t : ℕ} (ht : (s.timer t).state = .armed) :
    0 < s.count := by
  obtain ⟨j, hj, -⟩ := h.heap.bijOn.surjOn ht
  exact (Nat.zero_le j).trans_lt hj

/-- Two queues that agree on an armed timer which is first in both have one first deadline. -/
theorem QueueInv.first_deadline (h : QueueInv s) (h' : QueueInv s') (hpos : 0 < s.count)
    (hroot : (s'.timer (timerHeapPeek s)).state = .armed)
    (hkey : (s'.timer (timerHeapPeek s)).key = (s.timer (timerHeapPeek s)).key)
    (hback : (s.timer (timerHeapPeek s')).state = .armed ∧
      (s'.timer (timerHeapPeek s')).key = (s.timer (timerHeapPeek s')).key) :
    (s'.timer (timerHeapPeek s')).deadlineNs = (s.timer (timerHeapPeek s)).deadlineNs := by
  obtain ⟨-, hmin⟩ := h.heap.timerHeapPeek_spec hpos
  obtain ⟨-, hmin'⟩ := h'.heap.timerHeapPeek_spec (h'.count_pos hroot)
  have hle := hmin' _ hroot
  have hge := hmin _ hback.1
  rw [hkey] at hle
  rw [← hback.2] at hge
  have heq := le_antisymm hle hge
  exact BitVec.eq_of_toNat_eq (Prod.ext_iff.1 (toLex_inj.1 heq)).1

end

/-! ## The steps -/

theorem reprogram_sys (now : BitVec 64) (s : TimerCpu) : (reprogram now s).sys = s.sys ∧
    (reprogram now s).expiring = s.expiring := by
  unfold reprogram
  dsimp only
  split_ifs <;> exact ⟨rfl, rfl⟩

variable {s : TimerCpu}

/-- `reprogram` makes the hardware follow the queue. -/
theorem reprogram_hwExact (now : BitVec 64) (h : QueueInv s.sys)
    (hexp : s.expiring = false) : HwExact (reprogram now s) := by
  have hsys := (reprogram_sys now s).1
  unfold HwExact
  rw [hsys]
  split_ifs with h0
  · simp [reprogram, hexp, h.peek_eq_zero_iff.2 h0]
  · have hroot := (h.peek_armed (Nat.pos_of_ne_zero h0)).2
    simp only [reprogram, hexp, Bool.false_eq_true, if_false, if_neg hroot]
    refine ⟨_, rfl, ?_⟩
    simp only [Programmed.expiry]
    split_ifs with hpast hlong hlong
    · simp at hlong
    · rw [BitVec.le_def] at hpast
      simp only [BitVec.ofNat_eq_ofNat, BitVec.toNat_zero]
      omega
    · rw [BitVec.le_def, Nat.not_le] at hpast
      rw [gt_iff_lt, BitVec.lt_def, BitVec.toNat_sub_of_le (BitVec.le_def.2 hpast.le)] at hlong
      omega
    · rw [BitVec.le_def, Nat.not_le] at hpast
      have hsub := BitVec.toNat_sub_of_le (BitVec.le_def.2 hpast.le)
      rw [gt_iff_lt, BitVec.lt_def, hsub, Nat.not_lt] at hlong
      omega

/-- The hardware is as it was, and so is the first deadline. -/
theorem HwExact.congr {sys : TimerSys} (h : HwExact s) (hcount : sys.count = 0 ↔ s.sys.count = 0)
    (hfirst : s.sys.count ≠ 0 → (sys.timer (timerHeapPeek sys)).deadlineNs =
      (s.sys.timer (timerHeapPeek s.sys)).deadlineNs) : HwExact { s with sys := sys } := by
  unfold HwExact at h ⊢
  by_cases h0 : s.sys.count = 0
  · rw [if_pos h0] at h
    rw [if_pos (hcount.2 h0)]
    exact h
  · rw [if_neg h0] at h
    rw [if_neg (mt hcount.1 h0), hfirst h0]
    exact h

/-- Timers leave the queue, but not the first one. -/
theorem HwExact.of_fewer {sys : TimerSys} (h : HwExact s) (q : QueueInv s.sys) (q' : QueueInv sys)
    (hsub : ∀ u, (sys.timer u).state = .armed → (s.sys.timer u).state = .armed ∧
      (sys.timer u).key = (s.sys.timer u).key)
    (hroot : 0 < s.sys.count → (sys.timer (timerHeapPeek s.sys)).state = .armed) :
    HwExact { s with sys := sys } := by
  have hback : 0 < sys.count → (s.sys.timer (timerHeapPeek sys)).state = .armed ∧
      (sys.timer (timerHeapPeek sys)).key = (s.sys.timer (timerHeapPeek sys)).key := fun hpos =>
    hsub _ (q'.peek_armed hpos).1
  refine h.congr ⟨fun h0 => ?_, fun h0 => ?_⟩ fun hne => ?_
  · by_contra hne
    exact absurd (q'.count_pos (hroot (Nat.pos_of_ne_zero hne))) (by omega)
  · by_contra hne
    exact absurd (q.count_pos (hback (Nat.pos_of_ne_zero hne)).1) (by omega)
  · have hpos := Nat.pos_of_ne_zero hne
    exact q.first_deadline q' hpos (hroot hpos) (hsub _ (hroot hpos)).2
      (hback (q'.count_pos (hroot hpos)))

section

variable (now : BitVec 64) (q : QueueInv s.sys) (hexp : s.expiring = false) (h : HwExact s) (t : ℕ)

include now q hexp h t

/-- `timerArm` keeps the hardware on the first deadline. -/
theorem timerArmCpu_hwExact (deadlineNs : BitVec 64) :
    HwExact (timerArmCpu now s t deadlineNs) := by
  have heff := timerArm_spec q t deadlineNs
  unfold timerArmCpu
  dsimp only
  generalize (timerArm s.sys t deadlineNs).1 = st at *
  generalize (timerArm s.sys t deadlineNs).2 = sys at *
  split_ifs with hre
  · exact reprogram_hwExact now heff.queue hexp
  by_cases hst : st = .ok
  · -- The timer at the root is another one, and it is where it was.
    simp only [hst, true_and, not_or, not_not, ne_eq] at hre
    have hdata := heff.done hst
    have harmed : (sys.timer t).state = .armed := by
      rw [hdata.state_eq]
      simp [TimerOp.write]
    have hpos := heff.queue.count_pos harmed
    have hroot := (heff.queue.peek_armed hpos).2
    rw [hre.1, ne_eq, q.peek_eq_zero_iff] at hroot
    refine h.congr (iff_of_false hpos.ne' hroot) fun _ => ?_
    rw [hre.1, hdata.deadlineNs_eq]
    simp only [TimerOp.write, modify_timer_of_ne hre.2]
  · rw [heff.refused hst]
    exact h

/-- `timerCancel` keeps the hardware on the first deadline. -/
theorem timerCancelCpu_hwExact : HwExact (timerCancelCpu now s t) := by
  have heff := timerCancel_spec q t
  unfold timerCancelCpu
  dsimp only
  split_ifs with hre
  · exact reprogram_hwExact now heff.queue hexp
  -- The timer at the root is not the one that is cancelled.
  have hne : 0 < s.sys.count → timerHeapPeek s.sys ≠ t := by
    rintro hpos rfl
    obtain ⟨harmed, h0⟩ := q.peek_armed hpos
    exact hre ⟨⟨h0, harmed⟩, rfl⟩
  have hother : ∀ u, u ≠ t → ((timerCancel s.sys t).2.timer u).state = (s.sys.timer u).state ∧
      ((timerCancel s.sys t).2.timer u).key = (s.sys.timer u).key := by
    intro u hu
    by_cases hst : (timerCancel s.sys t).1 = .ok
    · have hdata := heff.done hst
      rw [hdata.state_eq, hdata.key_eq]
      simp only [TimerOp.write, TimerSys.setState, modify_timer_of_ne hu, and_self]
    · rw [heff.refused hst]
      exact ⟨rfl, rfl⟩
  refine h.of_fewer q heff.queue (fun u hu => ?_) fun hpos => ?_
  · by_cases hut : u = t
    · -- A timer that is still armed after it was cancelled was not there.
      subst hut
      by_cases hst : (timerCancel s.sys u).1 = .ok
      · rw [(heff.done hst).state_eq] at hu
        simp [TimerOp.write, TimerSys.setState] at hu
      · rw [heff.refused hst] at hu ⊢
        exact ⟨hu, rfl⟩
    · rw [(hother u hut).1] at hu
      exact ⟨hu, (hother u hut).2⟩
  · rw [(hother _ (hne hpos)).1]
    exact (q.peek_armed hpos).1

end

/-! ## Runs -/

/-- What every step keeps. -/
structure TimerCpuInv (s : TimerCpu) : Prop where
  queue : QueueInv s.sys
  seqOk : ∃ g, SeqOk s.sys g
  hw : s.expiring = false → HwExact s

theorem runOpCpu_sys (now : BitVec 64) (s : TimerCpu) (op : TimerOp) :
    (runOpCpu now s op).sys = (runOp s.sys op).2 ∧ (runOpCpu now s op).expiring = s.expiring := by
  cases op with
  | arm t deadlineNs =>
    simp only [runOpCpu, timerArmCpu, runOp]
    split_ifs
    · exact reprogram_sys now _
    · exact ⟨rfl, rfl⟩
  | cancel t =>
    simp only [runOpCpu, timerCancelCpu, runOp]
    split_ifs
    · exact reprogram_sys now _
    · exact ⟨rfl, rfl⟩
  | init t fn ctx => exact ⟨rfl, rfl⟩

theorem runOpCpu_hwExact (now : BitVec 64) (q : QueueInv s.sys)
    (hexp : s.expiring = false) (h : HwExact s) {op : TimerOp} (hlegal : op.Legal s.sys) :
    HwExact (runOpCpu now s op) := by
  cases op with
  | arm t deadlineNs => exact timerArmCpu_hwExact now q hexp h t deadlineNs
  | cancel t => exact timerCancelCpu_hwExact now q hexp h t
  | init t fn ctx =>
    have hother : ∀ u, u ≠ t → (timerInit s.sys t fn ctx).timer u = s.sys.timer u := fun u hu =>
      modify_timer_of_ne hu
    refine h.of_fewer q (timerInit_spec q hlegal).queue (fun u hu => ?_) fun hpos => ?_
    · have hut : u ≠ t := by
        rintro rfl
        simp [timerInit] at hu
      rw [hother u hut] at hu ⊢
      exact ⟨hu, rfl⟩
    · have hne : timerHeapPeek s.sys ≠ t := by
        rintro rfl
        exact hlegal.2.2 (q.peek_armed hpos).1
      rw [hother _ hne]
      exact (q.peek_armed hpos).1

theorem TimerCpuInv.init : TimerCpuInv .init :=
  ⟨TimerInv.init.queue, ⟨_, TimerInv.init.seqOk⟩, fun _ => rfl⟩

theorem TimerCpuInv.step {s' : TimerCpu} (v : TimerCpuInv s) (h : TimerCpuStep s s') :
    TimerCpuInv s' := by
  obtain ⟨g, hg⟩ := v.seqOk
  cases h with
  | timeInit hready =>
    have hw : TimerInv ⟨s.sys, g⟩ := ⟨v.queue, hg⟩
    have hw' := hw.step (.timeInit hready)
    exact ⟨hw'.queue, ⟨g, hw'.seqOk⟩, fun _ => rfl⟩
  | op now op hlegal =>
    obtain ⟨hsys, hexp⟩ := runOpCpu_sys now s op
    have heff := runOp_effect v.queue hlegal
    refine ⟨hsys ▸ heff.queue, ⟨_, hsys ▸ heff.seqOk g hg⟩, fun he => ?_⟩
    rw [hexp] at he
    exact runOpCpu_hwExact now v.queue he (v.hw he) hlegal
  | irqBegin now hexp =>
    have hb : Batch s.sys 0 0 [] :=
      ⟨.nil, List.nodup_nil, fun _ ht => (List.not_mem_nil ht).elim, rfl⟩
    obtain ⟨due, tail, hcol, -⟩ := collectDue_spec now v.queue le_rfl hb
    exact ⟨hcol.queue, ⟨g, hcol.seqOk g hg⟩, fun h => absurd h (by simp)⟩
  | @irqCall t hexp ht =>
    have ht0 : t ≠ 0 := v.queue.ne_zero (by simp [ht])
    have hq : QueueInv (s.sys.setState t .idle) :=
      v.queue.modify ht0 (by simp [ht]) TimerState.noConfusion
    have hseq : SeqOk (s.sys.setState t .idle) g := hg.modify TimerState.noConfusion
    exact ⟨hq, ⟨g, hseq⟩, fun h => absurd (hexp.symm.trans h) (by simp)⟩
  | irqEnd now hexp =>
    obtain ⟨hsys, -⟩ := reprogram_sys now { s with expiring := false }
    refine ⟨?_, ⟨g, ?_⟩, fun _ => reprogram_hwExact now v.queue rfl⟩
    · rw [hsys]; exact v.queue
    · rw [hsys]; exact hg
  | timeReprogram now =>
    obtain ⟨hsys, hexp⟩ := reprogram_sys now s
    refine ⟨hsys ▸ v.queue, ⟨g, hsys ▸ hg⟩, fun he => ?_⟩
    exact reprogram_hwExact now v.queue (hexp ▸ he)

/-- **The heap is a priority queue, and the hardware follows it.** After every sequence of
insertions, removals and pops; and, for the timers, whenever no expiry pass is running. -/
theorem timerHeap_priorityQueue : (∀ s w, Run HeapStep (.init s) w → PriorityQueue w) ∧
      ∀ s, Run TimerCpuStep .init s → s.expiring = false → HwExact s := by
  refine ⟨fun s w hrun => ?_, fun s hrun hexp => ?_⟩
  · have h : HeapInv w := hrun.invariant (HeapInv.init s) HeapInv.step
    exact h.priorityQueue
  · have v : TimerCpuInv s := hrun.invariant .init TimerCpuInv.step
    exact v.hw hexp

/-! ## Two timers -/

/-- An empty heap with `nextSeq` at `seq`, and timers that are all the same. -/
def sameTimers (seq : BitVec 64) : TimerSys where
  slot _ := 0
  count := 0
  nextSeq := seq
  timer _ := ⟨5, 0, 1, 0, 0, 0, .idle⟩
  timersReady := true

/-- A timer is inserted and removed, and written over with what it was. -/
theorem cycle_sameTimers (seq : BitVec 64) : (timerHeapInsert (sameTimers seq) 1).1 = .ok ∧
    (timerHeapRemove (timerHeapInsert (sameTimers seq) 1).2 1).modify 1
      (fun _ => ⟨5, 0, 1, 0, 0, 0, .idle⟩) = sameTimers (seq + 1) := by
  refine ⟨rfl, ?_⟩
  ext t
  · simp [timerHeapInsert, timerHeapRemove, siftUp, siftUpLoop, heapPlace, TimerSys.modify,
      sameTimers, TIMER_HEAP_CAP]
  · rfl
  · rfl
  · simp [timerHeapInsert, timerHeapRemove, siftUp, siftUpLoop, heapPlace, TimerSys.modify,
      sameTimers, TIMER_HEAP_CAP]
  · rfl

/-- Any number of insertions can have happened before the heap is empty again. -/
theorem run_sameTimers (n : ℕ) : ∃ stamp, Run HeapStep (.init (sameTimers 0))
    ⟨sameTimers (BitVec.ofNat 64 n), ∅, n, stamp⟩ := by
  induction n with
  | zero => exact ⟨_, .refl⟩
  | succ n ih =>
    obtain ⟨stamp, hrun⟩ := ih
    obtain ⟨hok, hcycle⟩ := cycle_sameTimers (BitVec.ofNat 64 n)
    have hnot : (1 : ℕ) ∉ (∅ : Set ℕ) := Set.notMem_empty 1
    have hins : timerHeapInsert (sameTimers (BitVec.ofNat 64 n)) 1 =
        (.ok, (timerHeapInsert (sameTimers (BitVec.ofNat 64 n)) 1).2) := Prod.ext hok rfl
    have h1 := hrun.tail (.insert (by decide) hnot hins)
    have h2 := h1.tail (.remove (Set.mem_insert 1 ∅))
    have h3 := h2.tail (.write (f := fun _ => ⟨5, 0, 1, 0, 0, 0, .idle⟩) fun h => h.2 rfl)
    rw [hcycle, Set.insert_sdiff_of_mem _ (Set.mem_singleton 1), Set.empty_sdiff] at h3
    exact ⟨_, by rw [BitVec.ofNat_add]; exact h3⟩

/-- Two timers with one deadline are inserted one after the other. -/
def insertBoth (s : TimerSys) : TimerSys := (timerHeapInsert (timerHeapInsert s 1).2 2).2

theorem run_insertBoth (n : ℕ) : ∃ w, Run HeapStep (.init (sameTimers 0)) w ∧
    w.sys = insertBoth (sameTimers (BitVec.ofNat 64 n)) ∧ w.live = {2, 1} ∧ w.inserts = n + 2 ∧
    w.stamp 1 < w.stamp 2 := by
  obtain ⟨stamp, hrun⟩ := run_sameTimers n
  have h1 := hrun.tail (.insert (by decide) (Set.notMem_empty 1) (Prod.ext rfl rfl))
  have h2 := h1.tail (.insert (t := 2) (by decide) (by simp) (Prod.ext rfl rfl))
  refine ⟨_, h2, rfl, ?_, rfl, ?_⟩
  · simp
  · simp

/-- They leave in that order. -/
theorem timerHeap_priorityQueue_twoTimers : ∃ w, Run HeapStep (.init (sameTimers 0)) w ∧
    PriorityQueue w ∧ (timerHeapPops 2 w.sys).1 = [1, 2] := by
  obtain ⟨w, hrun, hsys, -⟩ := run_insertBoth 0
  refine ⟨w, hrun, timerHeap_priorityQueue.1 _ w hrun, ?_⟩
  rw [hsys]
  decide +kernel

/-- After `2 ^ 64 - 1` insertions the next timer gets the largest `seq` and the one after it `0`,
and they leave in the wrong order. And a timer that is armed more than `TIMER_MAX_DELTA_NS` ahead
does not get the hardware programmed for its deadline. -/
theorem timerHeap_order_wraps : (∃ w, Run HeapStep (.init (sameTimers 0)) w ∧ InsertedBefore w 1 2 ∧
      (timerHeapPops 2 w.sys).1 = [2, 1]) ∧
    ∃ s p, Run TimerCpuStep .init s ∧ s.expiring = false ∧ s.hw = some p ∧
      p.expiry ≠ (s.sys.timer (timerHeapPeek s.sys)).deadlineNs.toNat := by
  constructor
  · obtain ⟨w, hrun, hsys, -, -, hstamp⟩ := run_insertBoth 18446744073709551615
    refine ⟨w, hrun, .inr ⟨?_, hstamp⟩, ?_⟩
    · rw [hsys]
      decide +kernel
    · rw [hsys]
      decide +kernel
  · have hrun : Run TimerCpuStep .init _ := ((Relation.ReflTransGen.refl.tail
      (TimerCpuStep.timeInit rfl)).tail
      (.op 0 (.init 1 1 0) ⟨by decide, by decide, TimerState.noConfusion⟩)).tail
      (.op 0 (.arm 1 (1 <<< 41)) trivial)
    exact ⟨_, _, hrun, rfl, rfl, by decide +kernel⟩

end Bongos.Core
