import Bongos.Core.TimerOps
import Bongos.IndexChain
import Bongos.Run
import Mathlib.Data.List.Sublists

/-!
# The timer interrupt delivers what is due

One pass of the timer interrupt takes the timers that are due off the heap, in order, links them
into a list and runs the callbacks of that list. Callbacks may arm, cancel and re-initialise any
timer; a timer of the list that one of them touched is passed over. The links live in the timer
objects, and no operation writes them, so the rest of the list is never lost.
-/

namespace Bongos.Core

open List

/-! ## Operations one after the other -/

/-- The operation cancelled, re-initialised or armed the timer. -/
def Touches (t : ℕ) : TimerOp × Status → Prop
  | (.arm u _, st) => u = t ∧ st = .ok
  | (.cancel u, _) => u = t
  | (.init u _ _, _) => u = t

/-- The order of the arms: how many there were, and for each timer how many came before its last. -/
structure ArmLog where
  count : ℕ
  last : ℕ → ℕ

/-- An operation that armed a timer is recorded. -/
def ArmLog.record (g : ArmLog) : TimerOp × Status → ArmLog
  | (.arm t _, .ok) => ⟨g.count + 1, Function.update g.last t g.count⟩
  | _ => g

/-- `seq` numbers the arms. -/
structure SeqOk (s : TimerSys) (g : ArmLog) : Prop where
  stamped : Stamped s {t | (s.timer t).state = .armed} g.count g.last
  notReady : s.timersReady = false → g.count = 0

/-- Operations that are legal when their turn comes. -/
def LegalOps : List TimerOp → TimerSys → Prop
  | [], _ => True
  | op :: ops, s => op.Legal s ∧ LegalOps ops (runOp s op).2

/-- What holds between a state and one that operations have led to. -/
structure OpsEffect (s : TimerSys) (log : List (TimerOp × Status)) (s' : TimerSys) : Prop where
  queue : QueueInv s'
  batchNext : ∀ t, (s'.timer t).batchNext = (s.timer t).batchNext
  expired : ∀ t, (s'.timer t).state = .expired ↔
    (s.timer t).state = .expired ∧ ∀ e ∈ log, ¬ Touches t e
  seqOk : ∀ g, SeqOk s g → SeqOk s' (log.foldl ArmLog.record g)

variable {s s' s₁ : TimerSys} {g : ArmLog} {t head tail fuel : ℕ} {op : TimerOp} {ts : List ℕ}
  {now : BitVec 64} {fired : List Fired}

theorem SameData.batchNext_eq (h : SameData s s') :
    (s'.timer t).batchNext = (s.timer t).batchNext :=
  (data_eq_iff.1 (h.data t)).2.2.2.2.1

theorem SameData.seqOk (h : SameData s s') (hg : SeqOk s g) : SeqOk s' g :=
  ⟨hg.stamped.mono h.nextSeq fun t ht =>
    ⟨(h.state_eq t).symm.trans ht, (data_eq_iff.1 (h.data t)).2.1⟩,
    fun hr => hg.notReady (h.timersReady.symm.trans hr)⟩

/-- A write after which a timer is not armed. -/
theorem SeqOk.modify {f : TimerObj → TimerObj} (hg : SeqOk s g)
    (hnew : (f (s.timer t)).state ≠ .armed) : SeqOk (s.modify t f) g := by
  refine ⟨hg.stamped.mono rfl fun u hu => ?_, hg.notReady⟩
  have hu : ((s.modify t f).timer u).state = .armed := hu
  have hne : u ≠ t := by
    rintro rfl
    rw [modify_timer_self] at hu
    exact hnew hu
  rw [modify_timer_of_ne hne] at hu ⊢
  exact ⟨hu, rfl⟩

/-- A new arm gets the next number. -/
theorem SeqOk.arm (hg : SeqOk s g) (hready : s.timersReady = true)
    (t : ℕ) (deadlineNs : BitVec 64) :
    SeqOk ((TimerOp.arm t deadlineNs).write s) (g.record (.arm t deadlineNs, .ok)) := by
  refine ⟨hg.stamped.insert rfl (by simp [TimerOp.write]) fun u hu hut => ?_,
    fun hr => absurd (hready.symm.trans hr) (by decide)⟩
  have hother : ((TimerOp.arm t deadlineNs).write s).timer u = s.timer u :=
    Function.update_of_ne hut _ _
  rw [Set.mem_ofPred_eq, hother] at hu
  exact ⟨hu, by rw [hother]⟩

/-- What a refused operation leaves, and what a cancel of a timer that is not idle does. -/
theorem timerCancel_refused (h : QueueInv s)
    (hst : (timerCancel s t).1 ≠ .ok) : (s.timer t).state = .idle := by
  unfold timerCancel at hst
  split_ifs at hst with ht0
  · rw [ht0]
    exact h.null
  · split at hst
    · exact absurd rfl hst
    · exact absurd rfl hst
    next hidle => exact hidle

theorem timerArm_ready {deadlineNs : BitVec 64}
    (hst : (timerArm s t deadlineNs).1 = .ok) : s.timersReady = true := by
  by_contra hr
  rw [timerArm, if_pos (by simp [hr])] at hst
  cases hst

/-- No write of an operation concerns the links. -/
theorem write_batchNext : ((op.write s).timer t).batchNext = (s.timer t).batchNext := by
  cases op with
  | arm u _ | cancel u | init u _ _ =>
    by_cases hu : t = u
    · simp [TimerOp.write, TimerSys.setState, timerInit, TimerSys.modify, hu]
    · simp [TimerOp.write, TimerSys.setState, timerInit, TimerSys.modify, hu]

/-- A timer that an operation writes to is not expired afterwards. -/
theorem write_expired : ((op.write s).timer t).state = .expired ↔
      (s.timer t).state = .expired ∧ ¬ Touches t (op, .ok) := by
  cases op with
  | arm u _ | cancel u | init u _ _ =>
    by_cases hu : t = u
    · simp [TimerOp.write, TimerSys.setState, timerInit, TimerSys.modify, Touches, hu]
    · simp [TimerOp.write, TimerSys.setState, timerInit, TimerSys.modify, Touches, hu, Ne.symm hu]

theorem write_seqOk (hg : SeqOk s g)
    (hst : (runOp s op).1 = .ok) : SeqOk (op.write s) (g.record (op, .ok)) := by
  cases op with
  | arm t deadlineNs => exact hg.arm (timerArm_ready hst) t deadlineNs
  | cancel t =>
    refine SeqOk.modify (f := fun o => { o with state := .idle }) hg ?_
    exact TimerState.noConfusion
  | init t fn ctx =>
    unfold TimerOp.write timerInit
    exact SeqOk.modify hg TimerState.noConfusion

/-- A refused operation touches no timer that waits for its callback. -/
theorem not_touches_of_refused (h : QueueInv s)
    (hst : (runOp s op).1 ≠ .ok) (ht : (s.timer t).state = .expired) :
    ¬ Touches t (op, (runOp s op).1) := by
  cases op with
  | arm u deadlineNs => exact fun htouch => hst htouch.2
  | cancel u =>
    rintro rfl
    rw [timerCancel_refused h hst] at ht
    cases ht
  | init u fn ctx => exact absurd rfl hst

theorem record_refused (g : ArmLog) {st : Status} (hst : st ≠ .ok) : g.record (op, st) = g := by
  unfold ArmLog.record
  split
  next heq =>
    cases heq
    exact absurd rfl hst
  next => rfl

/-- One operation. -/
theorem runOp_effect (h : QueueInv s) (hlegal : op.Legal s) :
    OpsEffect s [(op, (runOp s op).1)] (runOp s op).2 := by
  obtain ⟨hq, hdone, hrefused⟩ := runOp_spec h hlegal
  by_cases hst : (runOp s op).1 = .ok
  · have hsame := hdone hst
    refine ⟨hq, fun t => ?_, fun t => ?_, fun g hg => ?_⟩
    · rw [hsame.batchNext_eq, write_batchNext]
    · rw [hsame.state_eq, write_expired, hst, forall_mem_singleton]
    · rw [hst]
      exact hsame.seqOk (write_seqOk hg hst)
  · have hsame := hrefused hst
    refine ⟨hq, fun t => by rw [hsame], fun t => ?_, fun g hg => ?_⟩
    · rw [hsame, forall_mem_singleton]
      exact ⟨fun ht => ⟨ht, not_touches_of_refused h hst ht⟩, fun ht => ht.1⟩
    · rw [foldl_cons, foldl_nil, record_refused g hst, hsame]
      exact hg

theorem OpsEffect.trans {a b c : TimerSys} {l l' : List (TimerOp × Status)} (h : OpsEffect a l b)
    (h' : OpsEffect b l' c) : OpsEffect a (l ++ l') c := by
  refine ⟨h'.queue, fun t => (h'.batchNext t).trans (h.batchNext t), fun t => ?_, fun g hg => ?_⟩
  · rw [h'.expired, h.expired, forall_mem_append, and_assoc]
  · rw [foldl_append]
    exact h'.seqOk _ (h.seqOk g hg)

theorem runOps_effect {ops : List TimerOp} (h : QueueInv s)
    (hlegal : LegalOps ops s) : OpsEffect s (runOps ops s).1 (runOps ops s).2 := by
  induction ops generalizing s with
  | nil => exact ⟨h, fun _ => rfl, fun t => by simp [runOps], fun g hg => hg⟩
  | cons op ops ih =>
    have hop := runOp_effect h hlegal.1
    exact hop.trans (ih hop.queue hlegal.2)

/-! ## Collecting -/

/-- The timers taken off the heap so far, linked from `head` to `tail`. -/
structure Batch (s : TimerSys) (head tail : ℕ) (ts : List ℕ) : Prop where
  chain : Chain (fun t => (s.timer t).batchNext) 0 head ts
  nodup : ts.Nodup
  expired : ∀ t ∈ ts, (s.timer t).state = .expired
  tail_eq : tail = ts.getLast?.getD 0

theorem Batch.eq_nil {head ts} (b : Batch s head 0 ts) : ts = [] := by
  rcases eq_nil_or_concat ts with rfl | ⟨l, t, rfl⟩
  · rfl
  · have ht : 0 = t := by simpa using b.tail_eq
    exact absurd (by simp [← ht]) b.chain.stop_notMem

theorem Batch.getLast?_eq (b : Batch s head tail ts) (ht : tail ≠ 0) : ts.getLast? = some tail := by
  have htail := b.tail_eq
  cases hl : ts.getLast? with
  | none => exact absurd (by simpa [hl] using htail) ht
  | some u => rw [hl] at htail; rw [htail]; rfl

/-- What one round of the first loop writes. -/
structure Expired (s : TimerSys) (tail t : ℕ) (s' : TimerSys) : Prop where
  queue : QueueInv s'
  count : s'.count + 1 = s.count
  key : ∀ u, (s'.timer u).key = (s.timer u).key
  deadline : ∀ u, (s'.timer u).deadlineNs = (s.timer u).deadlineNs
  state : ∀ u, (s'.timer u).state = if u = t then .expired else (s.timer u).state
  next : ∀ u, (s'.timer u).batchNext =
    if u = tail ∧ tail ≠ 0 then t else if u = t then 0 else (s.timer u).batchNext
  seqOk : ∀ g, SeqOk s g → SeqOk s' g

theorem expireOne_spec (h : QueueInv s) (ht : (s.timer t).state = .armed)
    (htail : tail = 0 ∨ (s.timer tail).state = .expired) :
    Expired s tail t (expireOne s tail t) := by
  obtain ⟨hq, hsame, hcount⟩ := h.remove
    (f := fun o => { o with state := .expired, batchNext := 0 }) ht fun _ => TimerState.noConfusion
  have htimer : ∀ u, (expireOne s tail t).timer u = { (timerHeapRemove s t).timer u with
      state := if u = t then .expired else ((timerHeapRemove s t).timer u).state
      batchNext := if u = tail ∧ tail ≠ 0 then t else if u = t then 0
        else ((timerHeapRemove s t).timer u).batchNext } := by
    intro u
    by_cases h0 : tail = 0 <;> by_cases hut : u = t <;> by_cases hu : u = tail <;>
      simp_all [expireOne, TimerSys.modify, Function.update_apply]
  -- The last timer of the list is not armed, so the link to `t` is a write outside the heap.
  have hexp : tail ≠ 0 → (((timerHeapRemove s t).modify t
      fun o => { o with state := .expired, batchNext := 0 }).timer tail).state ≠ .armed :=
        fun h0 => by
    have hne : tail ≠ t := fun heq => by simp [heq, ht, heq ▸ h0] at htail
    rw [modify_timer_of_ne hne, hsame.state_eq, htail.resolve_left h0]
    exact TimerState.noConfusion
  refine ⟨?_, ?_, fun u => ?_, fun u => ?_, fun u => ?_, fun u => ?_, fun g hg => ?_⟩
  · unfold expireOne
    split_ifs with h0
    · exact hq
    · exact hq.modify h0 (hexp h0) (hexp h0)
  · unfold expireOne
    split_ifs <;> exact hcount
  · rw [htimer]
    exact hsame.key_eq u
  · rw [htimer]
    exact (data_eq_iff.1 (hsame.data u)).1
  · rw [htimer, hsame.state_eq]
  · rw [htimer, hsame.batchNext_eq]
  · have hseq := (hsame.seqOk hg).modify (t := t)
      (f := fun o => { o with state := .expired, batchNext := 0 }) TimerState.noConfusion
    unfold expireOne
    split_ifs with h0
    · exact hseq
    · exact hseq.modify (hexp h0)

/-- A timer that leaves the heap is put at the end of the batch. -/
theorem Batch.push (b : Batch s head tail ts)
    (ht : (s.timer t).state = .armed) (ht0 : t ≠ 0) (he : Expired s tail t s') :
    Batch s' (if tail = 0 then t else head) t (ts ++ [t]) := by
  have htts : t ∉ ts := fun hmem => by
    rw [b.expired t hmem] at ht
    cases ht
  have htt : ¬ (t = tail ∧ tail ≠ 0) := fun h => htts (h.1 ▸ mem_of_getLast? (b.getLast?_eq h.2))
  have hself : (s'.timer t).batchNext = 0 := by rw [he.next, if_neg htt, if_pos rfl]
  refine ⟨?_, ?_, fun u hu => ?_, by simp⟩
  · split_ifs with htail
    · subst htail
      rw [b.eq_nil]
      refine .cons ht0 ?_
      rw [hself]
      exact .nil
    · refine b.chain.snoc (b.getLast?_eq htail) b.nodup ht0 (fun u hu hne => ?_)
        ((he.next tail).trans (if_pos ⟨rfl, htail⟩)) hself
      rw [he.next, if_neg fun h => hne h.1, if_neg fun heq : u = t => htts (heq ▸ hu)]
  · exact nodup_append.2 ⟨b.nodup, nodup_singleton t, fun u hu v hv heq => by
      rw [mem_singleton] at hv
      exact htts (hv ▸ heq ▸ hu)⟩
  · rw [he.state]
    split_ifs with hut
    · rfl
    · exact b.expired u ((mem_append.1 hu).resolve_right fun h => hut (mem_singleton.1 h))

/-- What the first loop leaves: the timers that were due, in order, and the rest in the heap. -/
structure Collected (s : TimerSys) (now : BitVec 64) (due : List ℕ) (s' : TimerSys) : Prop where
  queue : QueueInv s'
  mem_iff : ∀ t, t ∈ due ↔ (s.timer t).state = .armed ∧ (s.timer t).deadlineNs ≤ now
  sorted : due.Pairwise fun t u => (s.timer t).key ≤ (s.timer u).key
  length_le : due.length ≤ s.count
  seqOk : ∀ g, SeqOk s g → SeqOk s' g

section

variable (h : QueueInv s)
  (hstop : ¬ (timerHeapPeek s ≠ 0 ∧ (s.timer (timerHeapPeek s)).deadlineNs ≤ now))

include h hstop

/-- When the loop stops, no timer is due. -/
theorem QueueInv.none_due : ¬ ((s.timer t).state = .armed ∧ (s.timer t).deadlineNs ≤ now) := by
  rintro ⟨ht, hdue⟩
  obtain ⟨j, hj, -⟩ := h.heap.bijOn.surjOn ht
  obtain ⟨hroot, hmin⟩ := h.heap.timerHeapPeek_spec ((Nat.zero_le j).trans_lt hj)
  refine hstop ⟨h.ne_zero (by rw [hroot]; exact TimerState.noConfusion), ?_⟩
  have hle : (s.timer (timerHeapPeek s)).deadlineNs.toNat ≤ (s.timer t).deadlineNs.toNat := by
    rcases Prod.Lex.toLex_le_toLex.1 (hmin t ht) with hlt | ⟨heq, -⟩
    · exact hlt.le
    · exact heq.le
  exact BitVec.le_def.2 (hle.trans (BitVec.le_def.1 hdue))

/-- Nothing is taken where the loop stops at once. -/
theorem Collected.nil : Collected s now [] s :=
  ⟨h, fun t => iff_of_false not_mem_nil (h.none_due hstop), .nil, Nat.zero_le _, fun _ hg => hg⟩

end

/-- The first timer that is taken, and what the rest of the loop takes. -/
theorem Collected.cons {due : List ℕ} (h : Collected s₁ now due s') (he : Expired s tail t s₁)
    (ht : (s.timer t).state = .armed ∧ (s.timer t).deadlineNs ≤ now)
    (hmin : ∀ u, (s.timer u).state = .armed → (s.timer t).key ≤ (s.timer u).key) :
    Collected s now (t :: due) s' := by
  have hmem : ∀ u, u ∈ due ↔
      u ≠ t ∧ (s.timer u).state = .armed ∧ (s.timer u).deadlineNs ≤ now := by
    intro u
    rw [h.mem_iff, he.deadline]
    rcases eq_or_ne u t with rfl | hu
    · simp [he.state]
    · simp [he.state, hu]
  refine ⟨h.queue, fun u => ?_, ?_, ?_, fun g hg => h.seqOk g (he.seqOk g hg)⟩
  · rw [mem_cons, hmem]
    constructor
    · rintro (rfl | hu)
      · exact ht
      · exact hu.2
    · intro hu
      by_cases hut : u = t
      · exact .inl hut
      · exact .inr ⟨hut, hu⟩
  · refine pairwise_cons.2 ⟨fun u hu => hmin u ((hmem u).1 hu).2.1, ?_⟩
    refine h.sorted.imp fun {u v} huv => ?_
    rwa [he.key, he.key] at huv
  · have := h.length_le
    have := he.count
    rw [length_cons]
    omega

theorem collectDue_spec (now : BitVec 64)
    (h : QueueInv s) (hfuel : s.count ≤ fuel) (b : Batch s head tail ts) :
    ∃ due tail', Collected s now due (collectDue now fuel head tail s).2 ∧
      Batch (collectDue now fuel head tail s).2 (collectDue now fuel head tail s).1 tail'
        (ts ++ due) := by
  induction fuel generalizing head tail s ts with
  | zero =>
    have hpeek : timerHeapPeek s = 0 := by rw [timerHeapPeek, if_pos (Nat.le_zero.1 hfuel)]
    exact ⟨[], tail, .nil h fun hp => hp.1 hpeek, by rwa [append_nil]⟩
  | succ fuel ih =>
    rw [collectDue]
    by_cases hdue : timerHeapPeek s ≠ 0 ∧ (s.timer (timerHeapPeek s)).deadlineNs ≤ now
    · rw [if_pos hdue]
      have hpos : 0 < s.count := by
        by_contra hzero
        exact hdue.1 (by rw [timerHeapPeek, if_pos (Nat.eq_zero_of_not_pos hzero)])
      obtain ⟨hroot, hmin⟩ := h.heap.timerHeapPeek_spec hpos
      have htail : tail = 0 ∨ (s.timer tail).state = .expired := by
        rcases eq_or_ne tail 0 with h0 | h0
        · exact .inl h0
        · exact .inr (b.expired tail (mem_of_getLast? (b.getLast?_eq h0)))
      have he := expireOne_spec h hroot htail
      have hcount := he.count
      obtain ⟨due, tail', hcol, hb⟩ := ih he.queue (by omega) (b.push hroot hdue.1 he)
      rw [append_assoc] at hb
      exact ⟨_ :: due, tail', hcol.cons he ⟨hroot, hdue.2⟩ hmin, hb⟩
    · rw [if_neg hdue]
      exact ⟨[], tail, .nil h hdue, by rwa [append_nil]⟩

/-! ## Dispatching -/

/-- The callbacks do only what is legal. -/
def Callbacks.Legal (callbacks : Callbacks) : Prop := ∀ s t, LegalOps (callbacks s t) s

/-- What the second loop does with the timers of the batch. -/
structure Dispatched (s : TimerSys) (ts : List ℕ) (fired : List Fired) (s' : TimerSys) : Prop where
  queue : QueueInv s'
  sublist : (fired.map Fired.timer).Sublist ts
  mem_iff : ∀ pre t post, ts = pre ++ t :: post → (t ∈ fired.map Fired.timer ↔
    (s.timer t).state = .expired ∧ ∀ f ∈ fired, f.timer ∈ pre → ∀ e ∈ f.log, ¬ Touches t e)
  expired : ∀ t ∈ fired.map Fired.timer, (s.timer t).state = .expired
  after : ∀ l f r, fired = l ++ f :: r → ∀ t, ∀ e ∈ f.log, Touches t e → t ∉ r.map Fired.timer
  seqOk : ∀ g, SeqOk s g → SeqOk s' ((fired.flatMap Fired.log).foldl ArmLog.record g)

/-- A timer of the batch that is not expired any more is passed over. -/
theorem Dispatched.skip (h : Dispatched s ts fired s') (ht : (s.timer t).state ≠ .expired) :
    Dispatched s (t :: ts) fired s' := by
  have htfired : t ∉ fired.map Fired.timer := fun hmem => ht (h.expired t hmem)
  refine ⟨h.queue, h.sublist.cons t, fun pre u post heq => ?_, h.expired, h.after, h.seqOk⟩
  cases pre with
  | nil =>
    obtain ⟨rfl, -⟩ := List.cons.inj heq
    exact iff_of_false htfired fun hu => ht hu.1
  | cons t' pre =>
    obtain ⟨rfl, hts⟩ := List.cons.inj heq
    rw [h.mem_iff pre u post hts]
    refine and_congr_right fun _ => forall₂_congr fun f hf => ?_
    have hft : f.timer ≠ t := fun heq => htfired (heq ▸ mem_map_of_mem hf)
    rw [mem_cons, or_iff_right hft]

/-- The callback of a timer of the batch runs, and the rest of the batch follows. -/
theorem Dispatched.call
    {log : List (TimerOp × Status)} (hnodup : (t :: ts).Nodup) (ht : (s.timer t).state = .expired)
    (hops : OpsEffect (s.setState t .idle) log s₁) (h : Dispatched s₁ ts fired s') :
    Dispatched s (t :: ts) (⟨t, log⟩ :: fired) s' := by
  obtain ⟨htts, -⟩ := nodup_cons.1 hnodup
  -- A timer of the batch is still expired after the callback if the callback did not touch it.
  have hkeep : ∀ u, (s₁.timer u).state = .expired ↔
      u ≠ t ∧ (s.timer u).state = .expired ∧ ∀ e ∈ log, ¬ Touches u e := by
    intro u
    rw [hops.expired, TimerSys.setState]
    rcases eq_or_ne u t with rfl | hu
    · simp
    · simp [modify_timer_of_ne hu, hu]
  have hfiredts : ∀ f ∈ fired, f.timer ≠ t := fun f hf heq =>
    htts (heq ▸ h.sublist.subset (mem_map_of_mem hf))
  refine ⟨h.queue, h.sublist.cons_cons t, fun pre u post heq => ?_, fun u hu => ?_,
    fun l f r heq u e he htouch => ?_, fun g hg => ?_⟩
  · cases pre with
    | nil =>
      obtain ⟨rfl, -⟩ := List.cons.inj heq
      exact iff_of_true mem_cons_self ⟨ht, fun f _ hf => (not_mem_nil hf).elim⟩
    | cons t' pre =>
      obtain ⟨rfl, hts⟩ := List.cons.inj heq
      have hut : u ≠ t := fun heq => htts (by rw [hts, heq]; simp)
      rw [map_cons, mem_cons, or_iff_right hut, h.mem_iff pre u post hts, hkeep, forall_mem_cons]
      have hpre : (∀ f ∈ fired, f.timer ∈ t :: pre → ∀ e ∈ f.log, ¬ Touches u e) ↔
          ∀ f ∈ fired, f.timer ∈ pre → ∀ e ∈ f.log, ¬ Touches u e :=
        forall₂_congr fun f hf => by rw [mem_cons, or_iff_right (hfiredts f hf)]
      tauto
  · rcases mem_cons.1 hu with rfl | hu
    · exact ht
    · exact ((hkeep u).1 (h.expired u hu)).2.1
  · cases l with
    | nil =>
      obtain ⟨rfl, rfl⟩ := List.cons.inj heq
      exact fun hmem => ((hkeep u).1 (h.expired u hmem)).2.2 e he htouch
    | cons f' l => exact h.after l f r (List.cons.inj heq).2 u e he htouch
  · rw [flatMap_cons, foldl_append]
    exact h.seqOk _ (hops.seqOk g (hg.modify TimerState.noConfusion))

/-- The second loop ends, after at most as many rounds as there are timers in the batch. -/
theorem dispatch_spec {callbacks : Callbacks} (hcb : callbacks.Legal) (h : QueueInv s)
    (hfuel : ts.length ≤ fuel) (hnodup : ts.Nodup)
    (hchain : Chain (fun u => (s.timer u).batchNext) 0 t ts) :
    ∃ fired s', dispatch callbacks fuel t s = some (fired, s') ∧ Dispatched s ts fired s' := by
  induction ts generalizing t s fuel with
  | nil =>
    cases hchain
    refine ⟨[], s, by cases fuel <;> rfl, h, Sublist.refl _, fun pre u post heq => ?_,
      fun _ hu => (not_mem_nil hu).elim, fun l f r heq => ?_, fun g hg => hg⟩
    · exact absurd heq.symm (by simp)
    · exact absurd heq.symm (by simp)
  | cons u ts ih =>
    cases hchain with
    | cons ht0 hchain =>
      obtain ⟨fuel, rfl⟩ : ∃ n, fuel = n + 1 :=
        Nat.exists_eq_succ_of_ne_zero (by rw [length_cons] at hfuel; omega)
      have hfuel' : ts.length ≤ fuel := by rw [length_cons] at hfuel; omega
      rw [dispatch, if_neg ht0]
      dsimp only
      split_ifs with hexp
      · have hq : QueueInv (s.setState u .idle) :=
          h.modify ht0 (by rw [hexp]; exact TimerState.noConfusion) TimerState.noConfusion
        have hops := runOps_effect hq (hcb (s.setState u .idle) u)
        generalize hrun : runOps (callbacks (s.setState u .idle) u) (s.setState u .idle) =
          res at hops
        obtain ⟨log, s₁⟩ := res
        have hchain1 : Chain (fun v => (s₁.timer v).batchNext) 0 (s.timer u).batchNext ts := by
          refine hchain.congr fun v hv => ?_
          have hvu : v ≠ u := fun heq => (nodup_cons.1 hnodup).1 (heq ▸ hv)
          rw [hops.batchNext, TimerSys.setState, modify_timer_of_ne hvu]
        obtain ⟨fired, s', hrest, hd⟩ := ih hops.queue hfuel' hnodup.of_cons hchain1
        exact ⟨⟨u, log⟩ :: fired, s', by simp only [hrest, Option.map_some],
          .call hnodup hexp hops hd⟩
      · obtain ⟨fired, s', hrest, hd⟩ := ih h hfuel' hnodup.of_cons hchain
        exact ⟨fired, s', hrest, hd.skip hexp⟩

end Bongos.Core
