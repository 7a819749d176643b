import Bongos.Core.TimerDelivery

/-!
# Delivery in every run of the timers

From boot on, whatever was armed, cancelled and re-initialised and whatever the callbacks did, the
next timer interrupt runs exactly the callbacks that are due and untouched, once each and in the
order of deadlines and arms, and leaves the armed timers in the queue. `seq` has 64 bits, so the
order of arms is kept as long as it has not wrapped; after `2 ^ 64` arms two timers with one
deadline can be delivered the other way round.
-/

namespace Bongos.Core

/-- The timers, and the order in which they were armed. -/
structure TimerWorld where
  sys : TimerSys
  arms : ArmLog

/-- Memory at boot. -/
def TimerWorld.init : TimerWorld where
  sys :=
    { slot := fun _ => 0, count := 0, nextSeq := 0, timer := fun _ => ⟨0, 0, 0, 0, 0, 0, .idle⟩,
      timersReady := false }
  arms := ⟨0, fun _ => 0⟩

/-- One step: `timeInit`, which runs once, an operation outside of the interrupt, or a whole
interrupt. -/
inductive TimerStep : TimerWorld → TimerWorld → Prop
  | timeInit {w : TimerWorld} (h : w.sys.timersReady = false) :
      TimerStep w ⟨timeInit w.sys, w.arms⟩
  | op {w : TimerWorld} (op : TimerOp) (h : op.Legal w.sys) :
      TimerStep w ⟨(runOp w.sys op).2, w.arms.record (op, (runOp w.sys op).1)⟩
  | irq {w : TimerWorld} (callbacks : Callbacks) (now : BitVec 64) (hcb : callbacks.Legal)
      {fired : List Fired} {s : TimerSys} (h : timeTimerIrq callbacks now w.sys = some (fired, s)) :
      TimerStep w ⟨s, (fired.flatMap Fired.log).foldl ArmLog.record w.arms⟩

/-- What every step keeps. -/
structure TimerInv (w : TimerWorld) : Prop where
  queue : QueueInv w.sys
  seqOk : SeqOk w.sys w.arms

/-- A whole interrupt: the timers that were due are collected, and then dispatched. -/
theorem timeTimerIrq_spec {callbacks : Callbacks} (hcb : callbacks.Legal) (now : BitVec 64)
    {s : TimerSys} (h : QueueInv s) :
    ∃ due fired s1 s', timeTimerIrq callbacks now s = some (fired, s') ∧ due.Nodup ∧
      Collected s now due s1 ∧ (∀ t ∈ due, (s1.timer t).state = .expired) ∧
      Dispatched s1 due fired s' := by
  have hb : Batch s 0 0 [] := ⟨.nil, List.nodup_nil, fun _ ht => (List.not_mem_nil ht).elim, rfl⟩
  obtain ⟨due, tail, hcol, hbatch⟩ := collectDue_spec now h le_rfl hb
  have hfuel : due.length ≤ TIMER_HEAP_CAP := hcol.length_le.trans h.heap.count_le
  obtain ⟨fired, s', hrun, hd⟩ := dispatch_spec hcb hcol.queue hfuel hbatch.nodup hbatch.chain
  exact ⟨due, fired, _, s', hrun, hbatch.nodup, hcol, hbatch.expired, hd⟩

/-- The queue, with an empty heap, while no timer is armed. -/
theorem TimerInv.empty {s : TimerSys} {g : ArmLog} (hcount : s.count = 0)
    (hslot : ∀ j, s.slot j = 0) (hidle : ∀ t, (s.timer t).state ≠ .armed)
    (hnull : (s.timer 0).state = .idle) (hseq : s.nextSeq = 0) (hg : g.count = 0) :
    TimerInv ⟨s, g⟩ where
  queue :=
    .of_heap (.empty hcount hslot) (fun t => iff_of_false (hidle t) (Set.notMem_empty t)) hnull
  seqOk :=
    ⟨⟨by rw [hg]; exact hseq, fun t ht => absurd ht (hidle t), fun t ht => absurd ht (hidle t),
      fun t ht => absurd ht (hidle t)⟩, fun _ => hg⟩

theorem TimerInv.init : TimerInv .init :=
  .empty rfl (fun _ => rfl) (fun _ => TimerState.noConfusion) rfl rfl rfl

theorem TimerInv.step {w w' : TimerWorld} (hw : TimerInv w) (h : TimerStep w w') : TimerInv w' := by
  cases h with
  | timeInit hready =>
    -- Nothing can have been armed yet.
    have hcount := hw.seqOk.notReady hready
    have hidle : ∀ t, (w.sys.timer t).state ≠ .armed := fun t ht =>
      absurd (hw.seqOk.stamped.lt t ht) (by rw [hcount]; exact Nat.not_lt_zero _)
    exact .empty rfl (fun _ => rfl) hidle hw.queue.null rfl hcount
  | op op hlegal =>
    have heff := runOp_effect hw.queue hlegal
    exact ⟨heff.queue, heff.seqOk w.arms hw.seqOk⟩
  | irq callbacks now hcb h =>
    obtain ⟨due, fired, s1, s', hrun, -, hcol, -, hd⟩ := timeTimerIrq_spec hcb now hw.queue
    rw [hrun] at h
    cases h
    exact ⟨hd.queue, hd.seqOk _ (hcol.seqOk _ hw.seqOk)⟩

/-- `t` is to be delivered before `u`: by deadline, and then by the order of the arms. -/
def ArmedBefore (w : TimerWorld) (t u : ℕ) : Prop :=
  (w.sys.timer t).deadlineNs < (w.sys.timer u).deadlineNs ∨
    (w.sys.timer t).deadlineNs = (w.sys.timer u).deadlineNs ∧ w.arms.last t < w.arms.last u

/-- One interrupt, in a given state: which callbacks run, and what is left in the queue. -/
structure Delivery (w : TimerWorld) (now : BitVec 64) (due : List ℕ) (fired : List Fired)
    (s' : TimerSys) : Prop where
  /-- `due` are the timers that are armed with a deadline that has come, -/
  mem_due : ∀ t, t ∈ due ↔ (w.sys.timer t).state = .armed ∧ (w.sys.timer t).deadlineNs ≤ now
  /-- in the order of delivery, as long as `seq` has not wrapped. -/
  sorted : w.arms.count ≤ 2 ^ 64 → due.Pairwise (ArmedBefore w)
  nodup : due.Nodup
  /-- Callbacks run for some of them, at most once each and in that order: -/
  sublist : (fired.map Fired.timer).Sublist due
  /-- for those that no earlier callback of the pass touched. -/
  mem_fired : ∀ pre t post, due = pre ++ t :: post → (t ∈ fired.map Fired.timer ↔
    ∀ f ∈ fired, f.timer ∈ pre → ∀ e ∈ f.log, ¬ Touches t e)
  /-- A timer that a callback arms does not run later in the pass. -/
  rearmed : ∀ l f r, fired = l ++ f :: r → ∀ t deadlineNs, (.arm t deadlineNs, .ok) ∈ f.log →
    t ∉ r.map Fired.timer
  /-- The queue holds the armed timers, each once. -/
  queue : Set.BijOn s'.slot (Set.Iio s'.count) {t | (s'.timer t).state = .armed}

/-- In every run the next timer interrupt ends and delivers exactly what is due, in order if at most
`2 ^ 64` arms succeeded. -/
theorem timer_delivery {w : TimerWorld} (h : Run TimerStep .init w) (callbacks : Callbacks)
    (hcb : callbacks.Legal) (now : BitVec 64) :
    ∃ due fired s', timeTimerIrq callbacks now w.sys = some (fired, s') ∧
      Delivery w now due fired s' := by
  have hw : TimerInv w := h.invariant TimerInv.init TimerInv.step
  obtain ⟨due, fired, s₁, s', hrun, hnodup, hcol, hexp, hd⟩ := timeTimerIrq_spec hcb now hw.queue
  refine ⟨due, fired, s', hrun, hcol.mem_iff, fun hwrap => ?_, hnodup, hd.sublist,
    fun pre t post heq => ?_, fun l f r heq t deadlineNs harm => ?_, hd.queue.heap.bijOn⟩
  · refine (hcol.sorted.and hnodup).imp_of_mem fun {t u} ht hu htu => ?_
    exact hw.seqOk.stamped.before hwrap ((hcol.mem_iff t).1 ht).1 ((hcol.mem_iff u).1 hu).1
      htu.1 htu.2
  · rw [hd.mem_iff pre t post heq]
    refine and_iff_right (hexp t ?_)
    rw [heq]
    exact List.mem_append_right pre List.mem_cons_self
  · exact hd.after l f r heq t _ harm ⟨rfl, rfl⟩

/-- Callbacks that do nothing. -/
def noCallbacks : Callbacks := fun _ _ => []

theorem noCallbacks_legal : noCallbacks.Legal := fun _ _ => trivial

/-- The queue after `timeInit`, with two timers initialised and `nextSeq` at `seq`. -/
def twoTimers (seq : BitVec 64) : TimerSys where
  slot _ := 0
  count := 0
  nextSeq := seq
  timer t := if t = 1 ∨ t = 2 then ⟨0, 0, 1, 0, 0, 0, .idle⟩ else ⟨0, 0, 0, 0, 0, 0, .idle⟩
  timersReady := true

/-- Boot, up to there. -/
theorem boot_twoTimers :
    (runOp (runOp (timeInit TimerWorld.init.sys) (.init 1 1 0)).2 (.init 2 1 0)).2 =
      twoTimers 0 := by
  ext t
  · rfl
  · rfl
  · rfl
  · by_cases h1 : t = 1
    · subst h1
      rfl
    · by_cases h2 : t = 2
      · subst h2
        rfl
      · simp [runOp, timerInit, TimerSys.modify, twoTimers, h1, h2, timeInit, TimerWorld.init]
  · rfl

/-- The first timer is armed, cancelled and re-initialised. -/
theorem cycle_twoTimers (seq : BitVec 64) : (runOp (twoTimers seq) (.arm 1 5)).1 = .ok ∧
      ((runOp (runOp (twoTimers seq) (.arm 1 5)).2 (.cancel 1)).2.timer 1).state ≠ .armed ∧
      (runOp (runOp (runOp (twoTimers seq) (.arm 1 5)).2 (.cancel 1)).2 (.init 1 1 0)).2 =
        twoTimers (seq + 1) := by
  refine ⟨rfl, TimerState.noConfusion, ?_⟩
  ext t
  · simp [runOp, timerArm, timerDequeue, timerHeapInsert, timerCancel, timerHeapRemove, siftUp,
      siftUpLoop, heapPlace, timerInit, TimerSys.setState, TimerSys.modify, twoTimers,
      TIMER_HEAP_CAP]
  · rfl
  · rfl
  · by_cases h1 : t = 1
    · subst h1
      rfl
    · simp [runOp, timerArm, timerDequeue, timerHeapInsert, timerCancel, timerHeapRemove, siftUp,
        siftUpLoop, heapPlace, timerInit, TimerSys.setState, TimerSys.modify, twoTimers,
        TIMER_HEAP_CAP, h1]
  · rfl

/-- Any number of arms can have happened before the queue is empty again. -/
theorem run_twoTimers (n : ℕ) :
    ∃ g : ArmLog, g.count = n ∧ Run TimerStep .init ⟨twoTimers (BitVec.ofNat 64 n), g⟩ := by
  induction n with
  | zero =>
    have h : Run TimerStep .init _ := ((Relation.ReflTransGen.refl.tail
      (TimerStep.timeInit rfl)).tail
      (.op (.init 1 1 0) ⟨by decide, by decide, TimerState.noConfusion⟩)).tail
      (.op (.init 2 1 0) ⟨by decide, by decide, TimerState.noConfusion⟩)
    rw [boot_twoTimers] at h
    exact ⟨_, rfl, h⟩
  | succ n ih =>
    obtain ⟨g, hg, h⟩ := ih
    obtain ⟨harm, hidle, hcycle⟩ := cycle_twoTimers (BitVec.ofNat 64 n)
    have h' := ((h.tail (.op (.arm 1 5) trivial)).tail (.op (.cancel 1) trivial)).tail
      (.op (.init 1 1 0) ⟨by decide, by decide, hidle⟩)
    rw [hcycle] at h'
    refine ⟨_, ?_, by rw [BitVec.ofNat_add]; exact h'⟩
    simp only [harm, ArmLog.record, hg]

/-- Two timers are armed one after the other for one time. -/
def armBoth (s : TimerSys) : TimerSys := (runOp (runOp s (.arm 1 5)).2 (.arm 2 5)).2

theorem run_armBoth {n : ℕ} {g : ArmLog}
    (h : Run TimerStep .init ⟨twoTimers (BitVec.ofNat 64 n), g⟩) :
    Run TimerStep .init ⟨armBoth (twoTimers (BitVec.ofNat 64 n)), ⟨g.count + 1 + 1,
      Function.update (Function.update g.last 1 g.count) 2 (g.count + 1)⟩⟩ :=
  (h.tail (.op (.arm 1 5) trivial)).tail (.op (.arm 2 5) trivial)

/-- The callback of the first timer cancels the second. -/
def cancelSecond : Callbacks := fun _ t => if t = 1 then [.cancel 2] else []

theorem cancelSecond_legal : cancelSecond.Legal := by
  intro s t
  unfold cancelSecond
  split_ifs
  · exact ⟨trivial, trivial⟩
  · trivial

/-- Two timers for one time, from boot, of which the first cancels the second. -/
theorem timer_delivery_twoTimers : ∃ w, Run TimerStep .init w ∧ w.arms.count = 2 ∧
    ∃ due fired s', timeTimerIrq cancelSecond 5 w.sys = some (fired, s') ∧
      fired.map Fired.timer = [1] ∧ Delivery w 5 due fired s' := by
  obtain ⟨g, hg, h⟩ := run_twoTimers 0
  obtain ⟨due, fired, s', hirq, hd⟩ :=
    timer_delivery (run_armBoth h) cancelSecond cancelSecond_legal 5
  have hfired : (timeTimerIrq cancelSecond 5 (armBoth (twoTimers 0))).map
      (fun r => r.1.map Fired.timer) = some [1] := by decide +kernel
  refine ⟨_, run_armBoth h, by rw [hg], due, fired, s', hirq, ?_, hd⟩
  have hirq : timeTimerIrq cancelSecond 5 (armBoth (twoTimers 0)) = some (fired, s') := hirq
  rw [hirq] at hfired
  exact Option.some.inj hfired

/-- After `2 ^ 64 - 1` arms the next timer gets the largest `seq` and the one after it `0`, and they
are delivered in the wrong order. -/
theorem timer_order_wraps : ∃ w fired s', Run TimerStep .init w ∧ noCallbacks.Legal ∧
    timeTimerIrq noCallbacks 5 w.sys = some (fired, s') ∧
    (w.sys.timer 1).state = .armed ∧ (w.sys.timer 2).state = .armed ∧ ArmedBefore w 1 2 ∧
    fired.map Fired.timer = [2, 1] := by
  obtain ⟨g, -, h⟩ := run_twoTimers 18446744073709551615
  have hrun : (timeTimerIrq noCallbacks 5
      (armBoth (twoTimers 18446744073709551615#64))).map (fun r => r.1.map Fired.timer) =
        some [2, 1] := by decide +kernel
  have harmed : ((armBoth (twoTimers 18446744073709551615#64)).timer 1).state = .armed ∧
      ((armBoth (twoTimers 18446744073709551615#64)).timer 2).state = .armed ∧
      ((armBoth (twoTimers 18446744073709551615#64)).timer 1).deadlineNs =
        ((armBoth (twoTimers 18446744073709551615#64)).timer 2).deadlineNs := by decide +kernel
  obtain ⟨⟨fired, s'⟩, hirq, hfired⟩ := Option.map_eq_some_iff.1 hrun
  refine ⟨_, fired, s', run_armBoth h, noCallbacks_legal, hirq, harmed.1, harmed.2.1,
    .inr ⟨harmed.2.2, ?_⟩, hfired⟩
  simp

end Bongos.Core
