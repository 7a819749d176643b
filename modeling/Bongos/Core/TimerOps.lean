import Bongos.Core.TimerQueue

/-!
# The operations on timers

Arming, cancelling and re-initialising a timer keep the queue: the heap holds exactly the armed
timers. Up to the places in the heap, an operation that succeeds is one write to its timer and an
operation that is refused is nothing. The order in which timers were armed is recorded on the side,
as the number of arms that came before a timer's last one; `seq` is that number cut to 64 bits.
-/

namespace Bongos.Core

/-- The heap holds exactly the armed timers; `NULL` is never one. -/
structure QueueInv (s : TimerSys) : Prop where
  heap : HeapOk s {t | (s.timer t).state = .armed}
  null : (s.timer 0).state = .idle

section Queue

variable {s s' : TimerSys} {t u : ℕ} {f : TimerObj → TimerObj}

@[simp] theorem modify_timer_self : (s.modify t f).timer t = f (s.timer t) :=
  Function.update_self _ _ _

theorem modify_timer_of_ne (h : u ≠ t) : (s.modify t f).timer u = s.timer u :=
  Function.update_of_ne h _ _

variable {live : Set ℕ}

/-- Only the keys and the places of the timers in the heap matter to it. -/
theorem HeapOk.congr (h : HeapOk s live) (hslot : s'.slot = s.slot)
    (hcount : s'.count = s.count) (htimer : ∀ t ∈ live, (s'.timer t).key = (s.timer t).key ∧
      (s'.timer t).heapIndex = (s.timer t).heapIndex) : HeapOk s' live := by
  have hmem : ∀ j < s.count, s.slot j ∈ live := fun j hj => h.bijOn.mapsTo hj
  refine ⟨hcount ▸ h.count_le, by rw [hslot, hcount]; exact h.bijOn, ?_,
    hcount ▸ hslot ▸ h.tail, ?_⟩
  · rw [hslot, hcount]
    intro j hj
    rw [(htimer _ (hmem j hj)).2]
    exact h.index j hj
  · rw [hslot, hcount]
    exact h.ordered.congr fun j hj => (htimer _ (hmem j hj)).1

/-- A write to a timer that is not in the heap. -/
theorem HeapOk.modify (h : HeapOk s live) (ht : t ∉ live) : HeapOk (s.modify t f) live := by
  refine h.congr rfl rfl fun u hu => ?_
  have hne : u ≠ t := fun heq => ht (heq ▸ hu)
  rw [modify_timer_of_ne hne]
  exact ⟨rfl, rfl⟩

/-- A queue is its heap, whose timers are the armed ones. -/
theorem QueueInv.of_heap (h : HeapOk s live)
    (hlive : ∀ t, (s.timer t).state = .armed ↔ t ∈ live) (hnull : (s.timer 0).state = .idle) :
    QueueInv s := by
  refine ⟨?_, hnull⟩
  rwa [show {t | (s.timer t).state = .armed} = live from Set.ext hlive]

/-- A write to a timer that is not armed and does not become armed. -/
theorem QueueInv.modify (h : QueueInv s) (ht : t ≠ 0) (hold : (s.timer t).state ≠ .armed)
    (hnew : (f (s.timer t)).state ≠ .armed) : QueueInv (s.modify t f) := by
  refine .of_heap (h.heap.modify hold) (fun u => ?_) ?_
  · rcases eq_or_ne u t with rfl | hu
    · rw [modify_timer_self]
      exact iff_of_false hnew hold
    · rw [modify_timer_of_ne hu]
      rfl
  · rw [modify_timer_of_ne ht.symm]
    exact h.null

theorem QueueInv.ne_zero (h : QueueInv s) (ht : (s.timer t).state ≠ .idle) : t ≠ 0 := by
  rintro rfl
  exact ht h.null

/-- An armed timer is taken out of the heap, and its state is written. -/
theorem QueueInv.remove (h : QueueInv s) (ht : (s.timer t).state = .armed)
    (hnew : ∀ o, (f o).state ≠ .armed) :
    QueueInv ((timerHeapRemove s t).modify t f) ∧ SameData s (timerHeapRemove s t) ∧
      (timerHeapRemove s t).count + 1 = s.count := by
  obtain ⟨hok, hsame, hcount⟩ := timerHeapRemove_spec h.heap ht
  have ht0 : t ≠ 0 := h.ne_zero (by rw [ht]; exact TimerState.noConfusion)
  refine ⟨.of_heap (hok.modify fun hmem => hmem.2 rfl) (fun u => ?_) ?_, hsame, hcount⟩
  · rcases eq_or_ne u t with rfl | hu
    · rw [modify_timer_self]
      exact iff_of_false (hnew _) fun hmem => hmem.2 rfl
    · rw [modify_timer_of_ne hu, hsame.state_eq]
      exact ⟨fun hu' => ⟨hu', hu⟩, fun hmem => hmem.1⟩
  · rw [modify_timer_of_ne ht0.symm, hsame.state_eq]
    exact h.null

end Queue

theorem data_eq_iff {o o' : TimerObj} : o'.data = o.data ↔
    o'.deadlineNs = o.deadlineNs ∧ o'.seq = o.seq ∧ o'.fn = o.fn ∧ o'.ctx = o.ctx ∧
      o'.batchNext = o.batchNext ∧ o'.state = o.state := by
  simp [TimerObj.data]

variable {s s' : TimerSys}

/-- The same write on two sides. -/
theorem SameData.setState (h : SameData s s') (t : ℕ) (state : TimerState) :
    SameData (s.setState t state) (s'.setState t state) := by
  refine ⟨fun u => ?_, h.nextSeq, h.timersReady⟩
  rcases eq_or_ne u t with rfl | hu
  · have hu := data_eq_iff.1 (h.data u)
    simp only [TimerSys.setState, modify_timer_self, data_eq_iff]
    tauto
  · simp only [TimerSys.setState, modify_timer_of_ne hu]
    exact h.data u

/-! ## What an operation does -/

/-- What an operation that succeeds writes, up to the places in the heap. -/
def TimerOp.write (s : TimerSys) : TimerOp → TimerSys
  | .arm t deadlineNs =>
    { s.modify t fun o =>
        { o with deadlineNs := deadlineNs, seq := s.nextSeq, state := .armed } with
      nextSeq := s.nextSeq + 1 }
  | .cancel t => s.setState t .idle
  | .init t fn ctx => timerInit s t fn ctx

/-- `timerInit` is for timers that are not armed; it panics on `NULL`. -/
def TimerOp.Legal (s : TimerSys) : TimerOp → Prop
  | .init t fn _ => t ≠ 0 ∧ fn ≠ 0 ∧ (s.timer t).state ≠ .armed
  | _ => True

/-- Whether an operation took effect on a timer. -/
structure OpEffect (s : TimerSys) (op : TimerOp) (st : Status) (s' : TimerSys) : Prop where
  queue : QueueInv s'
  done : st = .ok → SameData (op.write s) s'
  refused : st ≠ .ok → s' = s

variable {op : TimerOp}

theorem OpEffect.of_ok (hq : QueueInv s') (hd : SameData (op.write s) s') : OpEffect s op .ok s' :=
  ⟨hq, fun _ => hd, fun hst => absurd rfl hst⟩

theorem OpEffect.of_refused {st : Status} (hst : st ≠ .ok) (hq : QueueInv s) : OpEffect s op st s :=
  ⟨hq, fun h => absurd h hst, fun _ => rfl⟩

/-- A timer that was armed leaves the heap, and there is room for it then. -/
theorem timerDequeue_spec (h : QueueInv s) (t : ℕ) :
    QueueInv (timerDequeue s t) ∧ ((timerDequeue s t).timer t).state ≠ .armed ∧
      SameData (s.setState t .armed) ((timerDequeue s t).setState t .armed) ∧
      (timerDequeue s t = s ∨ (timerDequeue s t).count < TIMER_HEAP_CAP) := by
  unfold timerDequeue
  split_ifs with harmed
  · obtain ⟨hq, hsame, hcount⟩ := h.remove (f := fun o => { o with state := .idle }) harmed
      fun _ => TimerState.noConfusion
    refine ⟨hq, by simp [TimerSys.setState], ?_, .inr ?_⟩
    · have htwice : ((timerHeapRemove s t).setState t .idle).setState t .armed =
          (timerHeapRemove s t).setState t .armed := by
        simp [TimerSys.setState, TimerSys.modify]
      rw [htwice]
      exact hsame.setState t .armed
    · have := h.heap.count_le
      show (timerHeapRemove s t).count < TIMER_HEAP_CAP
      omega
  · exact ⟨h, harmed, .refl _, .inl rfl⟩

/-- What `timerHeapInsert` writes after `timerArm` has set the deadline. -/
theorem write_arm_sameData {s1 : TimerSys} {t : ℕ} (deadlineNs : BitVec 64)
    (h : SameData (s.setState t .armed) (s1.setState t .armed)) :
    SameData ((TimerOp.arm t deadlineNs).write s) ((TimerOp.arm t deadlineNs).write s1) := by
  have hseq : s1.nextSeq = s.nextSeq := h.nextSeq
  refine ⟨fun u => ?_, congrArg (· + 1) hseq, h.timersReady⟩
  have hu := h.data u
  rcases eq_or_ne u t with rfl | hne
  · simp only [TimerSys.setState, modify_timer_self, data_eq_iff] at hu
    simp only [TimerOp.write, modify_timer_self, data_eq_iff]
    tauto
  · simp only [TimerSys.setState, modify_timer_of_ne hne] at hu
    simpa only [TimerOp.write, modify_timer_of_ne hne] using hu

theorem timerArm_spec (h : QueueInv s) (t : ℕ) (deadlineNs : BitVec 64) :
    OpEffect s (.arm t deadlineNs) (timerArm s t deadlineNs).1 (timerArm s t deadlineNs).2 := by
  unfold timerArm
  split_ifs with hbad
  · exact .of_refused (by simp) h
  · have ht0 : t ≠ 0 := fun h0 => hbad (by simp [h0])
    obtain ⟨hq, hidle, hsame, hroom⟩ := timerDequeue_spec h t
    dsimp only
    generalize timerDequeue s t = s1 at hq hidle hsame hroom
    set s2 := s1.modify t fun o => { o with deadlineNs := deadlineNs } with hs2
    by_cases hfull : s2.count < TIMER_HEAP_CAP
    · have hok2 : HeapOk s2 {u | (s1.timer u).state = .armed} := hq.heap.modify hidle
      obtain ⟨s3, hins, hok3, hsame3⟩ := timerHeapInsert_spec hok2 hidle hfull
      rw [hins]
      have hwrite : { s2.modify t (fun o => { o with seq := s2.nextSeq, state := .armed }) with
          nextSeq := s2.nextSeq + 1 } = (TimerOp.arm t deadlineNs).write s1 := by
        simp [hs2, TimerOp.write, TimerSys.modify]
      rw [hwrite] at hsame3
      refine .of_ok (.of_heap hok3 (fun u => ?_) ?_)
        ((write_arm_sameData deadlineNs hsame).trans hsame3)
      · rw [hsame3.state_eq]
        rcases eq_or_ne u t with rfl | hu
        · exact iff_of_true (by simp [TimerOp.write]) (Set.mem_insert _ _)
        · simp [TimerOp.write, modify_timer_of_ne hu, hu]
      · rw [hsame3.state_eq]
        simp only [TimerOp.write, modify_timer_of_ne ht0.symm]
        exact hq.null
    · -- The heap is full, so the timer was not armed, and its old deadline is put back.
      have hs1 : s1 = s := hroom.resolve_right hfull
      have hins : timerHeapInsert s2 t = (.errNoMemory, s2) := by
        rw [timerHeapInsert, if_pos (Nat.not_lt.1 hfull)]
      have hback : (s2.modify t fun o => { o with deadlineNs := (s1.timer t).deadlineNs }) =
          s1 := by
        simp [hs2, TimerSys.modify]
      rw [hins]
      dsimp only
      rw [hback, hs1]
      exact .of_refused (by simp) h

theorem timerCancel_spec (h : QueueInv s) (t : ℕ) :
    OpEffect s (.cancel t) (timerCancel s t).1 (timerCancel s t).2 := by
  unfold timerCancel
  split_ifs with ht0
  · exact .of_refused (by simp) h
  · split
    next harmed =>
      obtain ⟨hq, hsame, -⟩ := h.remove (f := fun o => { o with state := .idle }) harmed
        fun _ => TimerState.noConfusion
      exact .of_ok hq (hsame.setState t .idle)
    next hexp =>
      have hq : QueueInv (s.setState t .idle) :=
        h.modify ht0 (by simp [hexp]) TimerState.noConfusion
      exact .of_ok hq (.refl _)
    next => exact .of_refused (by simp) h

theorem timerInit_spec (h : QueueInv s) {t fn ctx : ℕ} (hlegal : (TimerOp.init t fn ctx).Legal s) :
    OpEffect s (.init t fn ctx) .ok (timerInit s t fn ctx) :=
  .of_ok (h.modify hlegal.1 hlegal.2.2 TimerState.noConfusion) (.refl _)

theorem runOp_spec (h : QueueInv s) (hlegal : op.Legal s) :
    OpEffect s op (runOp s op).1 (runOp s op).2 := by
  cases op with
  | arm t deadlineNs => exact timerArm_spec h t deadlineNs
  | cancel t => exact timerCancel_spec h t
  | init t fn ctx => exact timerInit_spec h hlegal

end Bongos.Core
